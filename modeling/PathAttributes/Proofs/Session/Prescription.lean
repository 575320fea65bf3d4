import PathAttributes.Proofs.Session.Export
import PathAttributes.Proofs.Session.Rewrite

namespace PathAttributes

open AttrList

namespace Peering

variable {p : Peering} {r : Route} {attrs : List Attr} {b : AttrList}

/-- The peer can reach the next hop of a learned route itself. -/
def HopStays (p : Peering) (r : Route) : Prop :=
  (∃ a, r.attrs.get? .nextHop = some a) ∧ p.nextHopSelf = false ∧
    (p.peerType = .internal ∨ ∃ i, r.ifindex = some i ∧ p.ifindex = some i)

/-- The peer can reach the gateway of a route of the speaker's own. -/
def GatewayServes (p : Peering) (r : Route) : Prop :=
  p.nextHopSelf = false ∧ p.peerType = .internal ∧ r.dest = .router

structure PassesOn (p : Peering) (r : Route) (b : AttrList) : Prop where
  kept : ∀ code, code ≠ 2 → code ≠ 3 →
    b.find? (.bgp code) = (r.attrs.find? (.bgp code)).map canonicalAttr
  pathWithin : p.peerType = .internal → b.get? .asPath = (r.attrs.get? .asPath).map canonicalAttr
  pathAcross : p.peerType = .external → b.get? .asPath =
    some ⟨.bgp 2, .transitiveBit, .asPath (AsPath.extended r.path p.localAs)⟩
  hop : p.HopStays r → b.get? .nextHop = (r.attrs.get? .nextHop).map canonicalAttr
  ownHop : ¬p.HopStays r → b.get? .nextHop = some ⟨.bgp 3, .transitiveBit, .address p.localAddr⟩

structure Originates (p : Peering) (r : Route) (source : RouteSource) (b : AttrList) : Prop where
  kept : ∀ code, code ≠ 1 → code ≠ 2 → code ≠ 3 →
    b.find? (.bgp code) = (r.attrs.find? (.bgp code)).map canonicalAttr
  origin : b.get? .origin = some ⟨.bgp 1, .transitiveBit,
    .int (if source = .ripExternal ∨ source = .ospfExternal then 2 else 0)⟩
  pathWithin : p.peerType = .internal → b.get? .asPath = some ⟨.bgp 2, .transitiveBit, .asPath []⟩
  pathAcross : p.peerType = .external → b.get? .asPath =
    some ⟨.bgp 2, .transitiveBit, .asPath ([2, 1] ++ Octets.ofNat 2 p.localAs.toNat)⟩
  hop : ∀ addr, r.gateway = some addr → p.GatewayServes r →
    b.get? .nextHop = some ⟨.bgp 3, .transitiveBit, .address addr⟩
  ownHop : r.gateway = none ∨ ¬p.GatewayServes r →
    b.get? .nextHop = some ⟨.bgp 3, .transitiveBit, .address p.localAddr⟩

structure Advertises (p : Peering) (r : Route) (b : AttrList) : Prop where
  ascending : Ascending b.attrs
  bgp : ∀ a ∈ b.attrs, a.id.ns = .bgp
  learned : ∀ peer, r.origin = .neighbor peer → p.PassesOn r b
  originated : ∀ source, r.origin = .protocol source → p.Originates r source b

def Lacks (p : Peering) (r : Route) (type : AttrType) : Prop :=
  (∃ peer, r.origin = .neighbor peer) ∧
    (type = .origin ∨ type = .asPath ∧ p.peerType = .internal) ∧ r.attrs.get? type = none

theorem keepsNextHop_iff : p.keepsNextHop r = true ↔ p.HopStays r := by
  have hif : (r.ifindex.isSome && decide (r.ifindex = p.ifindex)) = true ↔
      ∃ i, r.ifindex = some i ∧ p.ifindex = some i := by
    cases r.ifindex <;> simp [eq_comm]
  simp only [keepsNextHop, HopStays, Bool.and_eq_true, Bool.or_eq_true, hif,
    Option.isSome_iff_exists, Bool.not_eq_true', decide_eq_true_eq, and_assoc]

theorem nextHopOf_of_serves {addr : Ipv4} (hg : r.gateway = some addr) (h : p.GatewayServes r) :
    p.nextHopOf r = addr := by
  obtain ⟨hs, hp, hd⟩ := h
  simp [nextHopOf, hg, hs, hp, hd]

theorem nextHopOf_of_not_serves (h : r.gateway = none ∨ ¬p.GatewayServes r) :
    p.nextHopOf r = p.localAddr := by
  rw [nextHopOf]
  cases hg : r.gateway with
  | none => rfl
  | some addr =>
    have hn : ¬p.GatewayServes r := h.resolve_left (by simp [hg])
    refine if_neg (fun hs ↦ hn ?_)
    simpa [GatewayServes, and_assoc] using hs

theorem originOf_eq (source : RouteSource) :
    originOf source = ⟨.bgp 1, .transitiveBit,
      .int (if source = .ripExternal ∨ source = .ospfExternal then 2 else 0)⟩ := by
  cases source <;> rfl

theorem find?_bucket (hb : b.attrs = (BucketTable.canonical (ofList attrs).sort r.attrs).attrs)
    (hr : r.attrs.Truthful) (code : UInt8) :
    b.find? (.bgp code) =
      ((first? attrs (.bgp code)).or (r.attrs.find? (.bgp code))).map canonicalAttr := by
  have hasc : Ascending b.attrs := hb ▸ BucketTable.ascending_canonical _ _
  rw [find?_eq_first? (fun _ ↦ hasc), find?_eq_first? hr, hb, BucketTable.first?_canonical,
    effective]
  exact congrArg (fun a ↦ (Option.or a _).map canonicalAttr) (first?_firsts attrs _)

theorem get?_bucket (hb : b.attrs = (BucketTable.canonical (ofList attrs).sort r.attrs).attrs)
    (hr : r.attrs.Truthful) (type : AttrType) :
    b.get? type = ((first? attrs type.id).or (r.attrs.get? type)).map canonicalAttr :=
  find?_bucket hb hr (Numbered.code type)

theorem first?_bgp_cons (type : AttrType) (v : Value) (attrs : List Attr) (code : UInt8) :
    first? (.bgp type v :: attrs) (.bgp code) =
      if code = Numbered.code type then some (.bgp type v) else first? attrs (.bgp code) := by
  have hid : (Attr.bgp type v).id = AttrId.bgp code ↔ code = Numbered.code type := by
    simp [Attr.bgp, AttrType.id, AttrId.bgp, eq_comm]
  rw [first?_cons]
  simp only [hid]

theorem first?_nextHopOver {code : UInt8} (h : code ≠ 3) :
    first? (p.nextHopOver r) (.bgp code) = none := by
  rw [nextHopOver]
  split
  · rfl
  · rw [first?_bgp_cons]
    exact if_neg h

theorem nextHopOver_of_stays (h : p.HopStays r) : p.nextHopOver r = [] :=
  if_pos (keepsNextHop_iff.2 h)

theorem nextHopOver_of_not_stays (h : ¬p.HopStays r) :
    p.nextHopOver r = [.bgp .nextHop (.address p.localAddr)] :=
  if_neg (fun hk ↦ h (keepsNextHop_iff.1 hk))

theorem passesOn_within
    (hb : b.attrs = (BucketTable.canonical (ofList (p.nextHopOver r)).sort r.attrs).attrs)
    (hr : r.attrs.Truthful) (hp : p.peerType = .internal) : p.PassesOn r b where
  kept code h₂ h₃ := by rw [find?_bucket hb hr, first?_nextHopOver h₃, Option.none_or]
  pathWithin _ := by
    rw [get?_bucket hb hr, AttrType.id, first?_nextHopOver (by decide), Option.none_or]
  pathAcross hp' := by
    rw [hp] at hp'
    cases hp'
  hop h := by
    rw [get?_bucket hb hr, nextHopOver_of_stays h]
    rfl
  ownHop h := by
    rw [get?_bucket hb hr, nextHopOver_of_not_stays h]
    rfl

theorem passesOn_across
    (hb : b.attrs = (BucketTable.canonical (ofList (.bgp .asPath (.asPath
      (AsPath.extended r.path p.localAs)) :: p.nextHopOver r)).sort r.attrs).attrs)
    (hr : r.attrs.Truthful) (hp : p.peerType = .external) : p.PassesOn r b where
  kept code h₂ h₃ := by
    have hne : code ≠ Numbered.code AttrType.asPath := h₂
    rw [find?_bucket hb hr, first?_bgp_cons, if_neg hne, first?_nextHopOver h₃, Option.none_or]
  pathWithin hp' := by
    rw [hp] at hp'
    cases hp'
  pathAcross _ := by
    rw [get?_bucket hb hr]
    rfl
  hop h := by
    rw [get?_bucket hb hr, nextHopOver_of_stays h]
    rfl
  ownHop h := by
    rw [get?_bucket hb hr, nextHopOver_of_not_stays h]
    rfl

theorem originates_of_rewrites {source : RouteSource}
    (hb : b.attrs = (BucketTable.canonical (ofList [originOf source, .bgp .asPath (.asPath
      p.firstPath), .bgp .nextHop (.address (p.nextHopOf r))]).sort r.attrs).attrs)
    (hr : r.attrs.Truthful) : p.Originates r source b where
  kept code h₁ h₂ h₃ := by
    have hne : code ≠ Numbered.code AttrType.origin ∧ code ≠ Numbered.code AttrType.asPath ∧
      code ≠ Numbered.code AttrType.nextHop := ⟨h₁, h₂, h₃⟩
    rw [find?_bucket hb hr, originOf, first?_bgp_cons, if_neg hne.1, first?_bgp_cons,
      if_neg hne.2.1, first?_bgp_cons, if_neg hne.2.2]
    rfl
  origin := by
    rw [get?_bucket hb hr, ← originOf_eq]
    rfl
  pathWithin hp := by
    rw [get?_bucket hb hr, firstPath, hp]
    rfl
  pathAcross hp := by
    rw [get?_bucket hb hr, firstPath, hp]
    rfl
  hop addr hg h := by
    rw [get?_bucket hb hr, nextHopOf_of_serves hg h]
    rfl
  ownHop h := by
    rw [get?_bucket hb hr, nextHopOf_of_not_serves h]
    rfl

theorem advertises_of_rewrites (h : p.Rewrites r attrs)
    (hb : b.attrs = (BucketTable.canonical (ofList attrs).sort r.attrs).attrs)
    (hr : r.attrs.Truthful) : p.Advertises r b := by
  have hasc : Ascending b.attrs := hb ▸ BucketTable.ascending_canonical _ _
  have hbgp : ∀ a ∈ b.attrs, a.id.ns = .bgp :=
    fun a ha ↦ BucketTable.ns_of_mem_canonical (hb ▸ ha)
  cases h with
  | within ho hp =>
    refine ⟨hasc, hbgp, fun _ _ ↦ passesOn_within hb hr hp, fun source hs ↦ ?_⟩
    simp [ho] at hs
  | across ho hp _ =>
    refine ⟨hasc, hbgp, fun _ _ ↦ passesOn_across hb hr hp, fun source hs ↦ ?_⟩
    simp [ho] at hs
  | originated ho =>
    refine ⟨hasc, hbgp, fun peer hn ↦ ?_, fun source hs ↦ ?_⟩
    · simp [ho] at hn
    · rw [ho] at hs
      cases hs
      exact originates_of_rewrites hb hr

theorem Originates.get?_asPath {source : RouteSource} (h : p.Originates r source b) :
    b.get? .asPath = some (.bgp .asPath (.asPath p.firstPath)) := by
  rw [firstPath]
  cases hp : p.peerType with
  | internal => exact h.pathWithin hp
  | external => exact h.pathAcross hp

theorem Originates.get?_nextHop {source : RouteSource} (h : p.Originates r source b) :
    b.get? .nextHop = some (.bgp .nextHop (.address (p.nextHopOf r))) := by
  by_cases hs : p.GatewayServes r
  · cases hg : r.gateway with
    | none =>
      rw [nextHopOf_of_not_serves (.inl hg)]
      exact h.ownHop (.inl hg)
    | some addr =>
      rw [nextHopOf_of_serves hg hs]
      exact h.hop addr hg hs
  · rw [nextHopOf_of_not_serves (.inr hs)]
    exact h.ownHop (.inr hs)

/-- What is laid down for a route that is sent gives it the mandatory attributes, unless it was
learned without them. -/
theorem Advertises.lacks {type : AttrType} (h : p.Advertises r b)
    (hm : type ∈ [AttrType.origin, .asPath, .nextHop]) (hn : b.get? type = none) :
    p.Lacks r type := by
  cases ho : r.origin with
  | protocol source =>
    have hown := h.originated source ho
    exfalso
    simp only [List.mem_cons, List.not_mem_nil, or_false] at hm
    rcases hm with rfl | rfl | rfl
    · simp [hown.origin] at hn
    · simp [hown.get?_asPath] at hn
    · simp [hown.get?_nextHop] at hn
  | neighbor peer =>
    obtain ⟨hkept, hwithin, hacross, hhop, hown⟩ := h.learned peer ho
    simp only [List.mem_cons, List.not_mem_nil, or_false] at hm
    rcases hm with rfl | rfl | rfl
    · refine ⟨⟨peer, ho⟩, .inl rfl, ?_⟩
      have hfind : b.get? .origin = (r.attrs.get? .origin).map canonicalAttr :=
        hkept 1 (by decide) (by decide)
      simpa [hn, eq_comm] using hfind
    · cases hp : p.peerType with
      | internal =>
        refine ⟨⟨peer, ho⟩, .inr ⟨rfl, hp⟩, ?_⟩
        simpa [hn, eq_comm] using hwithin hp
      | external => simp [hacross hp] at hn
    · exfalso
      by_cases hs : p.HopStays r
      · obtain ⟨a, ha⟩ := hs.1
        simp [hhop hs, ha] at hn
      · simp [hown hs] at hn

end Peering

namespace Session

variable {s : Session} {r : Route} {l : AttrList}

theorem notify_of_refused {e : ExportRefusal} (h : s.peering.overrides r = .error e) :
    (s.notify r).result = .ok none ∧ (s.notify r).session.buckets = s.buckets := by
  simp [notify, h]

/-- A route that is not refused has a bucket with the attributes laid down for it, or lacks one of
the mandatory ones. -/
theorem notify_of_rewrites {attrs : List Attr}
    (h : s.peering.overrides r = .ok (ofList attrs).sort) (hw : s.peering.Rewrites r attrs)
    (hr : r.attrs.Truthful) :
    (∃ id b, (s.notify r).result = .ok (some id) ∧
        (s.notify r).session.buckets.get? id = some b ∧ s.peering.Advertises r b.attrs) ∨
      ∃ type, (s.notify r).result = .error (.missingAttr s.peering.remoteAddr type) ∧
        (s.notify r).session.buckets = s.buckets ∧ s.peering.Lacks r type := by
  have hbuckets := buckets_notify h
  cases hg : (s.buckets.getOrCreate (ofList attrs).sort r.attrs).result with
  | ok id =>
    obtain ⟨b, hb, hattrs⟩ := BucketTable.exists_bucket_of_given hg
    exact .inl ⟨id, b, result_notify_eq_some_iff.2 ⟨_, h, hg⟩, hbuckets ▸ hb,
      Peering.advertises_of_rewrites hw hattrs hr⟩
  | error e =>
    obtain ⟨type⟩ := e
    obtain ⟨htable, hm⟩ := BucketTable.missing_of_error hg
    refine .inr ⟨type, by simp [notify, h, hg], hbuckets.trans htable, ?_⟩
    refine (Peering.advertises_of_rewrites hw rfl hr).lacks (List.mem_of_find?_eq_some hm) ?_
    rw [BucketTable.get?_canonical]
    simpa using List.find?_some hm

/-- A route is refused exactly if it must not be sent, which changes no bucket. Any other route that
has what it needs is sent with what is laid down for its attributes, and with nothing else. -/
theorem refuses_or_advertises (s : Session) (r : Route) (hr : r.attrs.Truthful) :
    ((s.notify r).result = .ok none ↔ s.peering.Refuses r) ∧
      ((s.notify r).result = .ok none → (s.notify r).session.buckets = s.buckets) ∧
      (¬s.peering.Refuses r →
        (∃ id b, (s.notify r).result = .ok (some id) ∧
            (s.notify r).session.buckets.get? id = some b ∧ s.peering.Advertises r b.attrs) ∨
          ∃ type, (s.notify r).result = .error (.missingAttr s.peering.remoteAddr type) ∧
            (s.notify r).session.buckets = s.buckets ∧ s.peering.Lacks r type) := by
  rcases s.peering.overrides_cases r with ⟨e, he, hrefuses⟩ | ⟨attrs, hattrs, hsends, hw⟩
  · obtain ⟨hresult, hbuckets⟩ := notify_of_refused he
    exact ⟨iff_of_true hresult hrefuses, fun _ ↦ hbuckets, fun h ↦ absurd hrefuses h⟩
  · have hcases := notify_of_rewrites hattrs hw hr
    have hresult : (s.notify r).result ≠ .ok none := by
      rcases hcases with ⟨id, b, h, -⟩ | ⟨type, h, -⟩ <;> simp [h]
    exact ⟨iff_of_false hresult hsends, fun h ↦ absurd h hresult, fun _ ↦ hcases⟩

def border : Session :=
  ⟨⟨⟨2⟩, .external, 65000, ⟨1⟩, 100, false, none, some ⟨⟨2⟩, 4⟩⟩, .ofSize 1, .zero⟩

def tagged : Route :=
  ⟨.neighbor ⟨⟨3⟩, .internal, 65000, ⟨3⟩⟩, .router, some ⟨10⟩, some 4,
    ⟨[⟨.bgp 1, ⟨0x40⟩, .int 0⟩, ⟨.bgp 2, ⟨0x50⟩, .asPath [1, 1, 0, 9]⟩,
      ⟨.bgp 3, ⟨0x60⟩, .address ⟨10⟩⟩, ⟨.bgp 8, ⟨0xC0⟩, .intSet [0, 0, 0, 2, 0, 0, 0, 1]⟩,
      ⟨⟨.ospf, 1⟩, ⟨0⟩, .int 7⟩], true⟩⟩

theorem advertises_tagged :
    tagged.attrs.Truthful ∧ ¬border.peering.Refuses tagged ∧
      ∃ id b, (border.notify tagged).result = .ok (some id) ∧
        (border.notify tagged).session.buckets.get? id = some b ∧
        border.peering.Advertises tagged b.attrs ∧
        b.attrs.find? (.bgp 8) = some ⟨.bgp 8, ⟨0xC0⟩, .intSet [0, 0, 0, 1, 0, 0, 0, 2]⟩ := by
  have htruthful : tagged.attrs.Truthful := by
    intro _
    simp [tagged, Ascending, AttrId.bgp, AttrId.number, Numbered.code]
  have hsends : ¬border.peering.Refuses tagged := by
    rintro ⟨peer, ho, h⟩
    cases ho
    rcases h with h | h | h
    · exact absurd h (by decide)
    · exact absurd h (by decide)
    · exact absurd h (by decide +kernel)
  have hfind (type : AttrType) : tagged.attrs.get? type = first? tagged.attrs.attrs type.id :=
    find?_eq_first? htruthful type.id
  refine ⟨htruthful, hsends, ?_⟩
  rcases (refuses_or_advertises border tagged htruthful).2.2 hsends with
    ⟨id, b, hresult, hb, hadv⟩ | ⟨type, -, -, -, htype, hn⟩
  · refine ⟨id, b, hresult, hb, hadv, ?_⟩
    have hset : IntSet.canonical [0, 0, 0, 2, 0, 0, 0, 1] = [0, 0, 0, 1, 0, 0, 0, 2] := by
      have hordered : IntSet.ordered [2, 1] = [1, 2] := by
        simp [IntSet.ordered, List.mergeSort, IntSet.withoutRepeats]
      have hc := IntSet.canonical_octets [2, 1]
      rw [hordered] at hc
      exact hc
    rw [(hadv.learned _ rfl).kept 8 (by decide) (by decide), find?_eq_first? htruthful, ← hset]
    rfl
  · rw [hfind] at hn
    rcases htype with rfl | ⟨rfl, -⟩
    · exact absurd hn (by decide)
    · exact absurd hn (by decide)

end Session

end PathAttributes
