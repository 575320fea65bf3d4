import PathAttributes.Proofs.AsPath.Extended
import PathAttributes.Proofs.Section.Delivery
import PathAttributes.Proofs.Session.Prescription

namespace PathAttributes

open AttrList

namespace Peering

variable {p : Peering} {r : Route} {b : AttrList} {a : Attr} {peer : PeerInfo}
  {source : RouteSource}

theorem Advertises.find?_eq_some (h : p.Advertises r b) (ha : a ∈ b.attrs) :
    b.find? (.bgp a.id.code) = some a := by
  have hid : AttrId.bgp a.id.code = a.id := by
    rw [AttrId.bgp, ← h.bgp a ha]
  rw [hid, find?_eq_first? (fun _ ↦ h.ascending)]
  exact h.ascending.first?_eq_some ha

theorem exists_of_map_find? {l : AttrList} {id : AttrId}
    (h : some a = (l.find? id).map canonicalAttr) : ∃ x ∈ l.attrs, a = canonicalAttr x := by
  obtain ⟨x, hx, rfl⟩ := Option.map_eq_some_iff.1 h.symm
  exact ⟨x, (mem_of_find? hx).1, rfl⟩

/-- Each attribute that is sent of a learned route is one of its own, or a path or a next hop that
is put over it. -/
theorem Advertises.mem_of_learned (h : p.Advertises r b) (ho : r.origin = .neighbor peer)
    (ha : a ∈ b.attrs) :
    (∃ x ∈ r.attrs.attrs, a = canonicalAttr x) ∧
        ¬(p.peerType = .external ∧ a.id = AttrType.asPath.id) ∨
      (p.peerType = .external ∧
        a = .bgp .asPath (.asPath (AsPath.extended r.path p.localAs))) ∨
      a = .bgp .nextHop (.address p.localAddr) := by
  obtain ⟨hkept, hwithin, hacross, hhop, hown⟩ := h.learned peer ho
  have hfind := h.find?_eq_some ha
  by_cases h₂ : a.id.code = 2
  · rw [h₂] at hfind
    cases hp : p.peerType with
    | internal => exact .inl ⟨exists_of_map_find? (hfind.symm.trans (hwithin hp)), by simp⟩
    | external => exact .inr (.inl ⟨rfl, Option.some.inj (hfind.symm.trans (hacross hp))⟩)
  have hne : ¬(p.peerType = .external ∧ a.id = AttrType.asPath.id) :=
    fun hc ↦ h₂ (congrArg AttrId.code hc.2)
  by_cases h₃ : a.id.code = 3
  · rw [h₃] at hfind
    by_cases hs : p.HopStays r
    · exact .inl ⟨exists_of_map_find? (hfind.symm.trans (hhop hs)), hne⟩
    · exact .inr (.inr (Option.some.inj (hfind.symm.trans (hown hs))))
  · exact .inl ⟨exists_of_map_find? (hfind.symm.trans (hkept _ h₂ h₃)), hne⟩

/-- A route of the speaker's own that has no attributes is sent with an origin, a path and a next
hop. -/
theorem Advertises.mem_of_originated (h : p.Advertises r b) (ho : r.origin = .protocol source)
    (hr : r.attrs.attrs = []) (ha : a ∈ b.attrs) :
    (∃ n ≤ 2, a = .bgp .origin (.int n)) ∨ a = .bgp .asPath (.asPath p.firstPath) ∨
      a = .bgp .nextHop (.address (p.nextHopOf r)) := by
  have hown := h.originated source ho
  have hfind := h.find?_eq_some ha
  by_cases h₁ : a.id.code = 1
  · rw [h₁] at hfind
    refine .inl ⟨_, ?_, Option.some.inj (hfind.symm.trans hown.origin)⟩
    split <;> decide
  by_cases h₂ : a.id.code = 2
  · rw [h₂] at hfind
    exact .inr (.inl (Option.some.inj (hfind.symm.trans hown.get?_asPath)))
  by_cases h₃ : a.id.code = 3
  · rw [h₃] at hfind
    exact .inr (.inr (Option.some.inj (hfind.symm.trans hown.get?_nextHop)))
  · obtain ⟨x, hx, -⟩ := exists_of_map_find? (hfind.symm.trans (hown.kept _ h₁ h₂ h₃))
    rw [hr] at hx
    cases hx

theorem Advertises.exists_mandatory (h : p.Advertises r b)
    (hr : (∃ peer, r.origin = .neighbor peer) → r.attrs.IsRead) {type : AttrType}
    (hm : type ∈ [AttrType.origin, .asPath, .nextHop]) : ∃ a ∈ b.attrs, a.id = type.id := by
  cases hg : b.get? type with
  | none =>
    obtain ⟨hlearned, -, hn⟩ := h.lacks hm hg
    obtain ⟨a, ha⟩ := (hr hlearned).exists_get? type (List.mem_append_left [AttrType.localPref] hm)
    rw [hn] at ha
    cases ha
  | some a => exact ⟨a, mem_of_find? hg⟩

theorem isWhole_path (h : r.attrs.IsRead) : AsPath.IsWhole r.path := by
  obtain ⟨path, hpath, hwhole⟩ := h.exists_asPath
  rwa [Route.path, hpath, Option.getD_some]

theorem keeps_address {addr : Ipv4} (h : addr.isUsable = true) :
    AttrType.nextHop.Keeps (.address addr) := (Ipv4.isUsable_iff addr).1 h

/-- What is sent of a route that was read is a section again, if the speaker has an address that can
be a next hop. -/
theorem Advertises.deliverable_of_learned (h : p.Advertises r b) (ho : r.origin = .neighbor peer)
    (hr : r.attrs.IsRead) (hp : ¬p.Refuses r) (hu : p.localAddr.isUsable = true) :
    b.Deliverable := by
  have hpath (hx : p.peerType = .external) :
      AttrType.asPath.Keeps (.asPath (AsPath.extended r.path p.localAs)) := by
    refine ⟨AsPath.isWhole_extended (isWhole_path hr) _, Nat.le_of_not_lt (fun hlt ↦ hp ?_)⟩
    exact ⟨peer, ho, .inr (.inr ⟨hx, hlt⟩)⟩
  have hself {x : Attr} (hx : x ∈ r.attrs.attrs) : canonicalAttr x = x :=
    Attr.canonicalAttr_eq_self ((hr.wellFormed hx).keptValue_tlv (hr.ns hx))
  refine ⟨h.ascending, h.bgp, ?_, ?_, fun type hm ↦ h.exists_mandatory (fun _ ↦ hr) hm⟩
  · intro a ha
    rcases h.mem_of_learned ho ha with ⟨⟨x, hx, rfl⟩, -⟩ | ⟨hx, rfl⟩ | rfl
    · rw [hself hx]
      exact hr.wellFormed hx
    · exact Attr.wellFormed_bgp .asPath (hpath hx)
    · exact Attr.wellFormed_bgp .nextHop (keeps_address hu)
  · intro a ha hne
    rcases h.mem_of_learned ho ha with ⟨⟨x, hx, rfl⟩, -⟩ | ⟨hx, rfl⟩ | rfl
    · rw [hself hx]
      exact hr.sent_eq_self hx
    · exact absurd rfl hne
    · exact (Attr.wellFormed_bgp .nextHop (keeps_address hu)).sent_eq_self .nextHop rfl (by decide)

theorem isWhole_firstPath (p : Peering) : AsPath.IsWhole p.firstPath := by
  have hnil : AsPath.IsWhole [] := ⟨[], by simp, rfl⟩
  rw [firstPath]
  cases p.peerType with
  | internal => exact hnil
  | external => exact AsPath.isWhole_extended hnil _

theorem isUsable_nextHopOf (hu : p.localAddr.isUsable = true)
    (hg : ∀ addr ∈ r.gateway, addr.isUsable = true) : (p.nextHopOf r).isUsable = true := by
  rw [nextHopOf]
  split
  · rename_i addr ha
    split
    · exact hg addr ha
    · exact hu
  · exact hu

/-- What is sent of a route of the speaker's own that has no attributes is a section without a
preference. -/
theorem Advertises.deliverable_of_originated (h : p.Advertises r b)
    (ho : r.origin = .protocol source) (hr : r.attrs.attrs = [])
    (hu : (p.nextHopOf r).isUsable = true) :
    b.Deliverable ∧ (∀ a ∈ b.attrs, a.id.number < AttrType.localPref.id.number) ∧
      ∀ a ∈ b.attrs, a.sent = a := by
  have hpath : AttrType.asPath.Keeps (.asPath p.firstPath) :=
    ⟨p.isWhole_firstPath, p.length_firstPath_le⟩
  have hwell : ∀ a ∈ b.attrs, a.WellFormed := by
    intro a ha
    rcases h.mem_of_originated ho hr ha with ⟨n, hn, rfl⟩ | rfl | rfl
    · exact Attr.wellFormed_bgp .origin hn
    · exact Attr.wellFormed_bgp .asPath hpath
    · exact Attr.wellFormed_bgp .nextHop (keeps_address hu)
  have hsent : ∀ a ∈ b.attrs, a.sent = a := by
    intro a ha
    have hw := hwell a ha
    rcases h.mem_of_originated ho hr ha with ⟨n, hn, rfl⟩ | rfl | rfl
    · exact hw.sent_eq_self .origin rfl (by decide)
    · refine if_neg (Nat.not_lt_of_le ?_)
      show p.firstPath.length ≤ 255
      rw [firstPath]
      cases p.peerType with
      | internal => exact Nat.zero_le _
      | external => simp [AsPath.length_extended, AsPath.growth, AsPath.hasRoom]
    · exact hw.sent_eq_self .nextHop rfl (by decide)
  refine ⟨⟨h.ascending, h.bgp, hwell, fun a ha _ ↦ hsent a ha, fun type hm ↦ ?_⟩, ?_, hsent⟩
  · refine h.exists_mandatory (fun hl ↦ ?_) hm
    obtain ⟨peer, hp⟩ := hl
    rw [ho] at hp
    cases hp
  · intro a ha
    rcases h.mem_of_originated ho hr ha with ⟨n, hn, rfl⟩ | rfl | rfl <;>
      simp [Attr.bgp, AttrType.id, AttrId.bgp, AttrId.number, Numbered.code]

/-- A route of the speaker's own has all the mandatory attributes, whatever it brings with it. -/
theorem firstMissing?_of_originated {attrs : List Attr} (h : p.Rewrites r attrs)
    (ho : r.origin = .protocol source) :
    Catalogue.firstMissing? (BucketTable.canonical (ofList attrs).sort r.attrs) = none := by
  apply List.find?_eq_none.2
  intro type hm
  have hfirst : ∃ a, first? attrs type.id = some a := by
    cases h with
    | within ho' | across ho' =>
      rw [ho] at ho'
      cases ho'
    | originated =>
      simp only [List.mem_cons, List.not_mem_nil, or_false] at hm
      rcases hm with rfl | rfl | rfl <;> exact ⟨_, rfl⟩
  obtain ⟨a, ha⟩ := hfirst
  have hcanonical : first? (BucketTable.canonical (ofList attrs).sort r.attrs).attrs type.id =
      some (canonicalAttr a) := by
    have hsort : first? (ofList attrs).sort.attrs type.id = some a :=
      (first?_firsts attrs type.id).trans ha
    rw [AttrType.id, BucketTable.first?_canonical, effective, ← AttrType.id, hsort]
    rfl
  simp [hcanonical]

end Peering

namespace Session

variable {s : Session} {r : Route}

theorem notify_of_originated {source : RouteSource} (ho : r.origin = .protocol source) :
    ∃ id b, (s.notify r).result = .ok (some id) ∧
      (s.notify r).session.buckets.get? id = some b ∧
      (r.attrs.Truthful → s.peering.Advertises r b.attrs) := by
  rcases s.peering.overrides_cases r with ⟨e, -, peer, hp, -⟩ | ⟨attrs, hattrs, -, hw⟩
  · rw [ho] at hp
    cases hp
  · cases hg : (s.buckets.getOrCreate (ofList attrs).sort r.attrs).result with
    | ok id =>
      obtain ⟨b, hb, hbucket⟩ := BucketTable.exists_bucket_of_given hg
      exact ⟨id, b, result_notify_eq_some_iff.2 ⟨_, hattrs, hg⟩, buckets_notify hattrs ▸ hb,
        Peering.advertises_of_rewrites hw hbucket⟩
    | error e =>
      obtain ⟨type⟩ := e
      have hm := (BucketTable.missing_of_error hg).2
      rw [Peering.firstMissing?_of_originated hw ho] at hm
      cases hm

theorem notify_of_isRead (hr : r.attrs.IsRead) :
    (s.notify r).result = .ok none ∨
      ∃ id b, (s.notify r).result = .ok (some id) ∧
        (s.notify r).session.buckets.get? id = some b ∧ s.peering.Advertises r b.attrs ∧
        ¬s.peering.Refuses r := by
  rcases s.peering.overrides_cases r with ⟨e, he, -⟩ | ⟨attrs, hattrs, hsends, hw⟩
  · exact .inl (notify_of_refused he).1
  · rcases notify_of_rewrites hattrs hw (fun _ ↦ hr.ascending) with
      ⟨id, b, hresult, hb, hadv⟩ | ⟨type, -, -, -, htype, hn⟩
    · exact .inr ⟨id, b, hresult, hb, hadv, hsends⟩
    · have hm : type ∈ [AttrType.origin, .asPath, .nextHop, .localPref] := by
        rcases htype with rfl | ⟨rfl, -⟩ <;> decide
      obtain ⟨a, ha⟩ := hr.exists_get? type hm
      rw [hn] at ha
      cases ha

/-- Whatever is sent of a route is read by the peer as it was sent. A route that was read is sent
with a preference of its own, one of the speaker's own without. -/
theorem received_of_notify (s : Session) (r : Route) :
    (∀ peer context bs, r.origin = .neighbor peer → decode context bs = .ok r.attrs →
      (∀ e, (s.notify r).result ≠ .error e) ∧
      (s.peering.localAddr.isUsable = true → ∀ id, (s.notify r).result = .ok (some id) →
        ∃ b, (s.notify r).session.buckets.get? id = some b ∧
          ∀ context, decode context b.attrs.encode =
            .ok ⟨b.attrs.attrs.map (Attr.received context), true⟩)) ∧
    (∀ source, r.origin = .protocol source →
      ∃ id b, (s.notify r).result = .ok (some id) ∧
        (s.notify r).session.buckets.get? id = some b ∧
        (r.attrs.attrs = [] → s.peering.localAddr.isUsable = true →
          (∀ addr ∈ r.gateway, addr.isUsable = true) →
          ∀ context, decode context b.attrs.encode =
            .ok ⟨b.attrs.attrs ++ [defaultPreference context.defaultLocalPref], true⟩)) := by
  refine ⟨fun peer context bs ho hd ↦ ?_, fun source ho ↦ ?_⟩
  · have hr : r.attrs.IsRead := ⟨context, bs, hd⟩
    rcases notify_of_isRead (s := s) hr with hnone | ⟨id, b, hsome, hb, hadv, hsends⟩
    · simp [hnone]
    refine ⟨by simp [hsome], fun hu id' hid' ↦ ?_⟩
    rw [hsome] at hid'
    cases hid'
    have hdel := hadv.deliverable_of_learned ho hr hsends hu
    obtain ⟨a, ha⟩ := hr.exists_get? .localPref (by decide)
    have hpref : b.attrs.get? .localPref = (r.attrs.get? .localPref).map canonicalAttr :=
      (hadv.learned peer ho).kept 5 (by decide) (by decide)
    rw [ha] at hpref
    exact ⟨b, hb, fun context ↦ hdel.decode_encode_of_mem context ⟨_, mem_of_find? hpref⟩⟩
  · obtain ⟨id, b, hsome, hb, hadv⟩ := notify_of_originated (s := s) ho
    refine ⟨id, b, hsome, hb, fun hnil hu hg context ↦ ?_⟩
    obtain ⟨hdel, hlt, hsent⟩ :=
      (hadv (by simp [Truthful, hnil, Ascending])).deliverable_of_originated ho hnil
        (Peering.isUsable_nextHopOf hu hg)
    have hself : b.attrs.attrs.map (Attr.received context) = b.attrs.attrs := by
      have hpref {a : Attr} (ha : a ∈ b.attrs.attrs) : a.id ≠ AttrType.localPref.id :=
        fun he ↦ Nat.ne_of_lt (hlt a ha) (congrArg AttrId.number he)
      refine (List.map_congr_left (fun a ha ↦ ?_)).trans (List.map_id _)
      rw [hdel.received_eq_sent ha (fun hc ↦ hpref ha hc.2),
        (hdel.wellFormed a ha).attr_tlv (hdel.bgp a ha), hsent a ha]
      rfl
    rw [hdel.decode_encode_of_lt context hlt, hself]

def frontier : Session :=
  ⟨⟨⟨2⟩, .external, 65000, ⟨0x0A000002⟩, 100, false, none, none⟩, .ofSize 1, .zero⟩

def nearby : Route :=
  ⟨.neighbor ⟨⟨3⟩, .internal, 65000, ⟨3⟩⟩, .router, none, none,
    ⟨[⟨.bgp 1, ⟨0x40⟩, .int 0⟩, ⟨.bgp 2, ⟨0x50⟩, .asPath []⟩,
      ⟨.bgp 3, ⟨0x40⟩, .address ⟨0x0A000001⟩⟩, ⟨.bgp 5, ⟨0x80⟩, .int 7⟩], true⟩⟩

def connected : Route := ⟨.protocol .device, .device, none, none, .empty⟩

theorem received_of_notify_nearby :
    decode ⟨.internal, 7⟩ nearby.attrs.encode = .ok nearby.attrs ∧
      frontier.peering.localAddr.isUsable = true ∧
      (∃ id b, (frontier.notify nearby).result = .ok (some id) ∧
        (frontier.notify nearby).session.buckets.get? id = some b ∧
        decode ⟨.external, 50⟩ b.attrs.encode =
          .ok ⟨b.attrs.attrs.map (Attr.received ⟨.external, 50⟩), true⟩) ∧
      ∃ id b, (frontier.notify connected).result = .ok (some id) ∧
        (frontier.notify connected).session.buckets.get? id = some b ∧
        decode ⟨.external, 50⟩ b.attrs.encode =
          .ok ⟨b.attrs.attrs ++ [defaultPreference 50], true⟩ := by
  have hdecode : decode ⟨.internal, 7⟩ nearby.attrs.encode = .ok nearby.attrs := by
    decide +kernel
  have husable : frontier.peering.localAddr.isUsable = true := by decide
  have hsends : ¬∃ e, frontier.peering.overrides nearby = .error e := by
    have hok : (frontier.peering.overrides nearby).toBool = true := by decide +kernel
    intro ⟨e, he⟩
    rw [he] at hok
    cases hok
  refine ⟨hdecode, husable, ?_, ?_⟩
  · rcases notify_of_isRead (s := frontier) ⟨_, _, hdecode⟩ with hnone | ⟨id, -, hid, -⟩
    · exact absurd (result_notify_eq_none_iff.1 hnone) hsends
    obtain ⟨-, hsent⟩ := (received_of_notify frontier nearby).1 _ _ _ rfl hdecode
    obtain ⟨b, hb, hd⟩ := hsent husable id hid
    exact ⟨id, b, hid, hb, hd ⟨.external, 50⟩⟩
  · obtain ⟨id, b, hid, hb, hd⟩ := (received_of_notify frontier connected).2 .device rfl
    refine ⟨id, b, hid, hb, hd rfl husable ?_ ⟨.external, 50⟩⟩
    simp [connected]

end Session

end PathAttributes
