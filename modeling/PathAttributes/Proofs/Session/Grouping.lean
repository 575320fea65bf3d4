import PathAttributes.Proofs.BucketTable.Identity
import PathAttributes.Proofs.Section.Delivery
import PathAttributes.Proofs.Session.Export
import PathAttributes.Proofs.Session.Rewrite

namespace PathAttributes

open AttrList Tlv

/-- The attribute that is sent to a peer in this form. All paths that leave the AS have the same
flags before they are sent. -/
def Tlv.regained (peer : PeerType) (t : Tlv) : Attr :=
  ⟨.bgp t.code,
    if peer = .external ∧ t.code = Numbered.code AttrType.asPath then .transitiveBit else ⟨t.flags⟩,
    t.keptValue⟩

namespace Attr

variable {a : Attr} {peer : PeerType} {type : AttrType} {v : Value}

/-- The attribute can be told from the form in which it is sent. -/
structure Legible (peer : PeerType) (a : Attr) : Prop where
  regained : a.tlv.regained peer = a
  bound : a.body.length ≤ Blob.limit

theorem Legible.canonicalAttr_eq_self (h : a.Legible peer) : canonicalAttr a = a :=
  Attr.canonicalAttr_eq_self (congrArg Attr.value h.regained)

theorem legible_of_wireFlags (hns : a.id.ns = .bgp) (hf : a.wireFlags = a.flags)
    (hv : a.tlv.keptValue = a.value) (hl : a.body.length ≤ Blob.limit)
    (hp : ¬(peer = .external ∧ a.id = AttrType.asPath.id)) : a.Legible peer := by
  have hid : AttrId.bgp a.id.code = a.id := by
    rw [AttrId.bgp, ← hns]
  have hp' : ¬(peer = .external ∧ a.tlv.code = Numbered.code AttrType.asPath) :=
    fun h ↦ hp ⟨h.1, id_eq_of_code hns h.2⟩
  refine ⟨?_, hl⟩
  rw [regained, if_neg hp', hv]
  show (⟨.bgp a.id.code, a.wireFlags, a.value⟩ : Attr) = a
  rw [hid, hf]

theorem legible_bgp (hv : (Attr.bgp type v).tlv.keptValue = v)
    (hl : (Attr.bgp type v).body.length ≤ 255) (hp : ¬(peer = .external ∧ type = .asPath)) :
    (Attr.bgp type v).Legible peer := by
  refine legible_of_wireFlags rfl (if_neg (Nat.not_lt_of_le hl)) hv (hl.trans (by decide)) ?_
  exact fun h ↦ hp ⟨h.1, Numbered.code_injective (congrArg AttrId.code h.2)⟩

theorem legible_origin {n : UInt32} (hn : n ≤ 2) : (Attr.bgp .origin (.int n)).Legible peer := by
  have ha : (Attr.bgp .origin (.int n)).Agrees .origin := agrees_origin rfl rfl hn
  exact legible_bgp ha.value (by simp [ha.length 1 rfl]) (by simp)

/-- This is so for any address, be it one that a peer takes as a next hop or not. -/
theorem legible_nextHop (addr : Ipv4) : (Attr.bgp .nextHop (.address addr)).Legible peer := by
  have hl : addr.octets.length = 4 := Octets.length_ofNat 4 _
  refine legible_bgp ?_ ?_ (by simp)
  · show Value.address ⟨UInt32.ofNat (Octets.toNat addr.octets)⟩ = _
    rw [Ipv4.toNat_octets, UInt32.ofNat_toNat]
  · show addr.octets.length ≤ 255
    omega

theorem legible_asPath {path : Blob} (hl : path.length ≤ Blob.limit) :
    (Attr.bgp .asPath (.asPath path)).Legible .external :=
  ⟨rfl, hl⟩

theorem legible_asPath_nil : (Attr.bgp .asPath (.asPath [])).Legible .internal :=
  legible_bgp rfl (by decide) (by simp)

end Attr

namespace AttrList

variable {l m : AttrList} {a : Attr} {peer : PeerType}

theorem IsRead.legible (h : l.IsRead) (ha : a ∈ l.attrs)
    (hp : ¬(peer = .external ∧ a.id = AttrType.asPath.id)) : a.Legible peer := by
  have hw := h.wellFormed ha
  have hns := h.ns ha
  have hflags : a.wireFlags = a.flags := by
    have hs := h.sent_eq_self ha
    rw [Attr.sent_eq] at hs
    exact congrArg Attr.flags hs
  exact Attr.legible_of_wireFlags hns hflags (hw.keptValue_tlv hns) (hw.body_length_le hns) hp

theorem attrs_eq_of_encode_eq (hl : ∀ a ∈ l.attrs, a.Legible peer)
    (hm : ∀ a ∈ m.attrs, a.Legible peer) (h : l.encode = m.encode) : l.attrs = m.attrs := by
  have hregained {l : AttrList} (hl : ∀ a ∈ l.attrs, a.Legible peer) :
      (l.attrs.map Attr.tlv).map (regained peer) = l.attrs := by
    rw [List.map_map]
    exact (List.map_congr_left (fun a ha ↦ (hl a ha).regained)).trans (List.map_id _)
  have hfits {l : AttrList} (hl : ∀ a ∈ l.attrs, a.Legible peer) :
      ∀ t ∈ l.attrs.map Attr.tlv, t.Fits := by
    intro t ht
    obtain ⟨a, ha, rfl⟩ := List.mem_map.1 ht
    exact Attr.fits_tlv (hl a ha).bound
  have hns {l : AttrList} (hl : ∀ a ∈ l.attrs, a.Legible peer) : l.retain .bgp = l := by
    refine retain_eq_self (fun a ha ↦ ?_)
    rw [← (hl a ha).regained]
    rfl
  rw [encode_eq, encode_eq, hns hl, hns hm] at h
  rw [← hregained hl, ← hregained hm, flatMap_octets_inj (hfits hl) (hfits hm) h]

end AttrList

/-- The attributes of the route were read from a section, or the route is one of the speaker's own
without any. -/
def Route.IsGenuine (r : Route) : Prop :=
  r.attrs.IsRead ∨ (∃ source, r.origin = .protocol source) ∧ r.attrs.attrs = []

namespace Peering

variable {p : Peering} {r : Route} {attrs : List Attr}

theorem Rewrites.legible (h : p.Rewrites r attrs) : ∀ a ∈ attrs, a.Legible p.peerType := by
  have hover : ∀ a ∈ p.nextHopOver r, a.Legible p.peerType := by
    intro a ha
    rw [nextHopOver] at ha
    split at ha
    · cases ha
    · rw [List.mem_singleton.1 ha]
      exact Attr.legible_nextHop _
  intro a ha
  cases h with
  | within ho hp => exact hover a ha
  | across ho hp hl =>
    rcases List.mem_cons.1 ha with rfl | ha
    · rw [hp]
      exact Attr.legible_asPath hl
    · exact hover a ha
  | @originated source ho =>
    simp only [List.mem_cons, List.not_mem_nil, or_false] at ha
    rcases ha with rfl | rfl | rfl
    · apply Attr.legible_origin
      cases source <;> decide
    · have hle := p.length_firstPath_le
      cases hp : p.peerType with
      | internal =>
        have hnil : p.firstPath = [] := by simp only [firstPath, hp]
        rw [hnil]
        exact Attr.legible_asPath_nil
      | external => exact Attr.legible_asPath hle
    · exact Attr.legible_nextHop _

theorem Rewrites.first?_asPath_ne_none (h : p.Rewrites r attrs) (hp : p.peerType = .external) :
    first? attrs AttrType.asPath.id ≠ none := by
  intro hn
  cases h with
  | within ho hp' =>
    rw [hp] at hp'
    cases hp'
  | across | originated => cases hn

theorem Rewrites.legible_canonical (h : p.Rewrites r attrs) (hr : r.IsGenuine) :
    ∀ a ∈ (BucketTable.canonical (ofList attrs).sort r.attrs).attrs, a.Legible p.peerType := by
  intro a ha
  obtain ⟨b, rfl, hb⟩ := BucketTable.exists_of_mem_canonical ha
  have hlegible : b.Legible p.peerType := by
    rcases hb with hb | ⟨hb, hn⟩
    · exact h.legible b (mem_of_mem_firsts hb)
    · rcases hr with hr | ⟨-, hnil⟩
      · refine hr.legible hb (fun ⟨hp, hid⟩ ↦ h.first?_asPath_ne_none hp ?_)
        rw [← hid, ← first?_firsts]
        exact hn
      · rw [hnil] at hb
        cases hb
  rwa [hlegible.canonicalAttr_eq_self]

end Peering

namespace Session

variable {s : Session} {r : Route} {lists : Catalogue} {peer : PeerType}

/-- Sends routes one after the other, each under the conditions that then hold with the peer. -/
def notifyAll : Session → List (Peering × Route) → Session × List (Except SessionError (Option Nat))
  | s, [] => (s, [])
  | s, (p, r) :: calls =>
    let n := { s with peering := p }.notify r
    let rest := n.session.notifyAll calls
    (rest.1, n.result :: rest.2)

structure Groups (s : Session) (peer : PeerType) (lists : Catalogue) : Prop where
  holds : s.buckets.Holds lists
  legible : ∀ l ∈ lists, ∀ a ∈ l.attrs, a.Legible peer

theorem Groups.notify (h : s.Groups peer lists) (hp : s.peering.peerType = peer)
    (hr : r.IsGenuine) :
    ∃ lists', lists <+: lists' ∧ (s.notify r).session.Groups peer lists' ∧
      ∀ id, (s.notify r).result = .ok (some id) → id < lists'.length := by
  rcases s.peering.overrides_cases r with ⟨e, he, -⟩ | ⟨attrs, hattrs, -, hw⟩
  · have hresult : (s.notify r).result = .ok none := result_notify_eq_none_iff.2 ⟨e, he⟩
    have hbuckets : (s.notify r).session.buckets = s.buckets := by simp [Session.notify, he]
    refine ⟨lists, List.prefix_rfl, ⟨hbuckets ▸ h.holds, h.legible⟩, fun id hid ↦ ?_⟩
    rw [hresult] at hid
    cases hid
  · obtain ⟨hholds, hanswer⟩ := h.holds.getOrCreate (ofList attrs).sort r.attrs
    refine ⟨_, Catalogue.isPrefix_answer lists (.getOrCreate (ofList attrs).sort r.attrs),
      ⟨buckets_notify hattrs ▸ hholds, fun l hl ↦ ?_⟩, fun id hid ↦ ?_⟩
    · rcases Catalogue.mem_answer hl with hl | rfl
      · exact h.legible l hl
      · exact hp ▸ hw.legible_canonical hr
    · obtain ⟨l, hl, hgiven⟩ := result_notify_eq_some_iff.1 hid
      rw [hattrs] at hl
      cases hl
      have hgiven' : (lists.answer (.getOrCreate (ofList attrs).sort r.attrs)).2 =
          .given (.ok id) := hanswer.symm.trans (congrArg BucketAnswer.given hgiven)
      obtain ⟨l, hl, -⟩ := Catalogue.exists_of_answer hgiven'
      exact (List.getElem?_eq_some_iff.1 hl).1

/-- By induction on the calls: the lists stay, and those that are added can be told as well. -/
theorem Groups.notifyAll {calls : List (Peering × Route)} (h : s.Groups peer lists)
    (hp : ∀ c ∈ calls, c.1.peerType = peer) (hr : ∀ c ∈ calls, c.2.IsGenuine) :
    ∃ lists', lists <+: lists' ∧ (s.notifyAll calls).1.Groups peer lists' ∧
      ∀ id, .ok (some id) ∈ (s.notifyAll calls).2 → id < lists'.length := by
  induction calls generalizing s lists with
  | nil => exact ⟨lists, List.prefix_rfl, h, by simp [Session.notifyAll]⟩
  | cons c calls ih =>
    have hpeering : ({ s with peering := c.1 } : Session).Groups peer lists := ⟨h.holds, h.legible⟩
    obtain ⟨hp₁, hp₂⟩ := List.forall_mem_cons.1 hp
    obtain ⟨hr₁, hr₂⟩ := List.forall_mem_cons.1 hr
    obtain ⟨lists₁, hprefix₁, hgroups₁, hid₁⟩ := hpeering.notify hp₁ hr₁
    obtain ⟨lists₂, hprefix₂, hgroups₂, hid₂⟩ := ih hgroups₁ hp₂ hr₂
    refine ⟨lists₂, hprefix₁.trans hprefix₂, hgroups₂, fun id hid ↦ ?_⟩
    rcases List.mem_cons.1 hid with hid | hid
    · exact Nat.lt_of_lt_of_le (hid₁ id hid.symm) hprefix₂.length_le
    · exact hid₂ id hid

/-- Two routes that are sent share a bucket exactly if the octets that are sent are the same,
whatever changes between them but whether the peer is in the AS. -/
theorem bucket_eq_iff_encode_eq (s : Session) {size : Nat} (hs : s.buckets = .ofSize size)
    {peer : PeerType} {calls : List (Peering × Route)} (hp : ∀ c ∈ calls, c.1.peerType = peer)
    (hr : ∀ c ∈ calls, c.2.IsGenuine) {i j : Nat} (hi : .ok (some i) ∈ (s.notifyAll calls).2)
    (hj : .ok (some j) ∈ (s.notifyAll calls).2) :
    ∃ b c, (s.notifyAll calls).1.buckets.get? i = some b ∧
      (s.notifyAll calls).1.buckets.get? j = some c ∧
      (i = j ↔ b.attrs.encode = c.attrs.encode) := by
  have hempty : s.Groups peer [] := ⟨hs ▸ BucketTable.holds_ofSize size, by simp⟩
  obtain ⟨lists, -, ⟨hholds, hlegible⟩, hid⟩ := hempty.notifyAll hp hr
  have hget {id : Nat} (hlt : id < lists.length) :
      (s.notifyAll calls).1.buckets.get? id = some (.ofAttrs lists[id]) := by
    rw [BucketTable.get?, hholds.getElem?, List.getElem?_eq_getElem hlt]
    rfl
  have hilt := hid i hi
  have hjlt := hid j hj
  refine ⟨_, _, hget hilt, hget hjlt, ?_, fun he ↦ ?_⟩
  · intro hij
    subst hij
    rfl
  · have hattrs : lists[i].attrs = lists[j].attrs :=
      attrs_eq_of_encode_eq (hlegible _ (List.getElem_mem hilt))
        (hlegible _ (List.getElem_mem hjlt)) he
    exact hholds.index_inj (List.getElem?_eq_getElem hilt) (List.getElem?_eq_getElem hjlt) hattrs

def abroad (nextHopSelf : Bool) : Peering :=
  ⟨⟨2⟩, .external, 65000, ⟨1⟩, 100, nextHopSelf, none, none⟩

def bare (flags : Flags) (hop : Ipv4) : Route :=
  ⟨.neighbor ⟨⟨3⟩, .internal, 65000, ⟨3⟩⟩, .router, none, none,
    ⟨[⟨.bgp 1, ⟨0x40⟩, .int 0⟩, ⟨.bgp 2, flags, .asPath []⟩, ⟨.bgp 3, ⟨0x40⟩, .address hop⟩,
      ⟨.bgp 5, ⟨0x80⟩, .int 7⟩], true⟩⟩

def mixedCalls : List (Peering × Route) :=
  [(abroad false, bare ⟨0x40⟩ ⟨0x0A000001⟩), (abroad true, bare ⟨0x50⟩ ⟨0x0A000002⟩),
    (abroad false, ⟨.protocol .static, .router, none, none, .empty⟩)]

theorem bucket_eq_iff_encode_eq_mixed :
    ((⟨abroad false, .ofSize 1, .zero⟩ : Session).notifyAll mixedCalls).2 =
        [.ok (some 0), .ok (some 0), .ok (some 1)] ∧
      ∃ b c, ((⟨abroad false, .ofSize 1, .zero⟩ : Session).notifyAll mixedCalls).1.buckets.get? 0 =
          some b ∧
        ((⟨abroad false, .ofSize 1, .zero⟩ : Session).notifyAll mixedCalls).1.buckets.get? 1 =
          some c ∧ b.attrs.encode ≠ c.attrs.encode := by
  have hresults : ((⟨abroad false, .ofSize 1, .zero⟩ : Session).notifyAll mixedCalls).2 =
      [.ok (some 0), .ok (some 0), .ok (some 1)] := by decide +kernel
  have hread₁ : decode ⟨.internal, 7⟩ (bare ⟨0x40⟩ ⟨0x0A000001⟩).attrs.encode =
      .ok (bare ⟨0x40⟩ ⟨0x0A000001⟩).attrs := by decide +kernel
  have hread₂ : decode ⟨.internal, 7⟩ (bare ⟨0x50⟩ ⟨0x0A000002⟩).attrs.encode =
      .ok (bare ⟨0x50⟩ ⟨0x0A000002⟩).attrs := by decide +kernel
  have hpeer : ∀ c ∈ mixedCalls, c.1.peerType = .external := by simp [mixedCalls, abroad]
  have hgenuine : ∀ c ∈ mixedCalls, c.2.IsGenuine := by
    intro c hc
    simp only [mixedCalls, List.mem_cons, List.not_mem_nil, or_false] at hc
    rcases hc with rfl | rfl | rfl
    · exact .inl ⟨_, _, hread₁⟩
    · exact .inl ⟨_, _, hread₂⟩
    · exact .inr ⟨⟨.static, rfl⟩, rfl⟩
  obtain ⟨b, c, hb, hc, hiff⟩ := bucket_eq_iff_encode_eq ⟨abroad false, .ofSize 1, .zero⟩ rfl hpeer
    hgenuine (i := 0) (j := 1) (by simp [hresults]) (by simp [hresults])
  exact ⟨hresults, b, c, hb, hc, fun he ↦ absurd (hiff.2 he) (by decide)⟩

end Session

end PathAttributes
