import PathAttributes.Proofs.Route.Interning
import PathAttributes.Proofs.Session.Loop

namespace PathAttributes

open AttrList Tlv

variable {context : Context} {bs : Octets} {l : AttrList} {type : AttrType}

/-- The octets are complete attributes of which one alone is of the type, and has this value. -/
def Sends (bs : Octets) (type : AttrType) (v : Octets) : Prop :=
  ∃ ts : List Tlv, (∀ t ∈ ts, t.Fits) ∧ bs = ts.flatMap octets ∧
    (ts.filter (fun t ↦ t.code = Numbered.code type)).map value = [v]

theorem Tlv.filter_code {ts : List Tlv} {t : Tlv} (h : (ts.map code).Nodup) (ht : t ∈ ts) :
    ts.filter (fun u ↦ u.code = t.code) = [t] := by
  have hiff : ∀ u ∈ ts, decide (u.code = t.code) = decide (u = t) := by
    intro u hu
    refine decide_eq_decide.2 ⟨?_, congrArg code⟩
    exact fun he ↦ List.inj_on_of_nodup_map h hu ht he
  rw [List.filter_congr hiff, List.filter_eq, List.count_eq_one_of_mem (.of_map code h) ht]
  rfl

/-- A mandatory attribute of a section that is taken is there once, also among what is not kept. -/
theorem Admissible.filter_code {peer : PeerType} {ts : List Tlv} (h : Admissible peer ts)
    (hm : type ∈ [AttrType.origin, .asPath, .nextHop]) :
    ∃ t ∈ ts, t.code = Numbered.code type ∧ t.isKept peer = true ∧
      ts.filter (fun u ↦ u.code = Numbered.code type) = [t] := by
  obtain ⟨t, ht, hkept, hcode⟩ := mem_keptCodes.1 (h.mandatory type hm)
  refine ⟨t, ht, hcode, hkept, ?_⟩
  have hall : ∀ u ∈ ts, decide (u.code = t.code) =
      (decide (u.code = t.code) && u.isKept peer) := by
    intro u _
    by_cases he : u.code = t.code
    · have hu : u.isKept peer = t.isKept peer := by rw [isKept, isKept, he]
      rw [hu, hkept, Bool.and_true]
    · simp [he]
  rw [← hcode, List.filter_congr hall, ← List.filter_filter]
  exact Tlv.filter_code h.distinct (List.mem_filter.2 ⟨ht, hkept⟩)

namespace AttrList

theorem exists_sent_of_decode (h : decode context bs = .ok l)
    (hm : type ∈ [AttrType.origin, .asPath, .nextHop]) :
    ∃ v a, Sends bs type v ∧ type.HasLength v ∧ type.Allows v ∧
      l.get? type = some a ∧ a.value = type.sentValue v := by
  obtain ⟨ts, hbs, hadm, hs⟩ := exists_admissible_of_decode h
  obtain ⟨t, ht, hcode, hkept, hfilter⟩ := hadm.filter_code hm
  have hconf := hadm.conforms t ht
  have hsends : Sends bs type t.value := by
    refine ⟨ts, hadm.complete, hbs, ?_⟩
    rw [hfilter]
    rfl
  exact ⟨t.value, _, hsends, hconf.length type hcode, hconf.value type hcode,
    get?_of_isKept hs ht hkept hcode, rfl⟩

theorem exists_path_of_decode (h : decode context bs = .ok l) :
    ∃ path : List Segment, (∀ x ∈ path, x.members.length ≤ 255) ∧
      Sends bs .asPath (path.flatMap Segment.octets) ∧
      (l.get? .asPath).bind (·.value.asPath?) = some (path.flatMap Segment.octets) := by
  obtain ⟨v, a, hsends, -, hwhole, hget, hv⟩ :=
    @exists_sent_of_decode _ _ _ .asPath h (by decide)
  obtain ⟨path, hcount, rfl⟩ := hwhole
  refine ⟨path, hcount, hsends, ?_⟩
  rw [hget, Option.bind_some, hv]
  rfl

theorem exists_nextHop_of_decode (h : decode context bs = .ok l) :
    ∃ hop : Ipv4, Sends bs .nextHop hop.octets ∧
      (l.get? .nextHop).bind (·.value.address?) = some hop := by
  obtain ⟨v, a, hsends, hlength, -, hget, hv⟩ :=
    @exists_sent_of_decode _ _ _ .nextHop h (by decide)
  obtain ⟨hop, rfl, hbits⟩ := Ipv4.exists_octets (hlength 4 rfl)
  refine ⟨hop, hsends, ?_⟩
  rw [hget, Option.bind_some, hv, AttrType.sentValue, ← hbits]
  rfl

end AttrList

namespace Peering

variable {p : Peering} {resolve : Ipv4 → Option Gateway} {path : List Segment} {hop : Ipv4}
  {reason reason' : ImportRefusal} {g : Gateway}

def OnPath (p : Peering) (path : List Segment) : Prop := ∃ x ∈ path, p.localAs ∈ x.members

/-- The objection to a route of this path and next hop: the first of the three that applies. -/
def Objects (p : Peering) (resolve : Ipv4 → Option Gateway) (path : List Segment) (hop : Ipv4) :
    ImportRefusal → Prop
  | .asLoop => p.OnPath path
  | .selfNextHop => ¬p.OnPath path ∧ hop = p.localAddr
  | .nextHopUnreachable =>
    ¬p.OnPath path ∧ hop ≠ p.localAddr ∧ resolve hop = none ∧ p.gateway = none

/-- The gateway of a route that is accepted: that of its next hop, or else that of the peer. -/
def Forwards (p : Peering) (resolve : Ipv4 → Option Gateway) (hop : Ipv4) (g : Gateway) : Prop :=
  resolve hop = some g ∨ resolve hop = none ∧ p.gateway = some g

theorem Objects.unique (h : p.Objects resolve path hop reason)
    (h' : p.Objects resolve path hop reason') : reason = reason' := by
  cases reason with
  | asLoop =>
    cases reason' with
    | asLoop => rfl
    | selfNextHop | nextHopUnreachable => exact absurd h h'.1
  | selfNextHop =>
    cases reason' with
    | asLoop => exact absurd h' h.1
    | selfNextHop => rfl
    | nextHopUnreachable => exact absurd h.2 h'.2.1
  | nextHopUnreachable =>
    cases reason' with
    | asLoop => exact absurd h' h.1
    | selfNextHop => exact absurd h'.2 h.2.1
    | nextHopUnreachable => rfl

theorem forwards_iff : p.Forwards resolve hop g ↔ (resolve hop).or p.gateway = some g := by
  rw [Forwards]
  cases resolve hop <;> simp

theorem hasLoop_iff (hcount : ∀ x ∈ path, x.members.length ≤ 255)
    (hpath : (l.get? .asPath).bind (·.value.asPath?) = some (path.flatMap Segment.octets)) :
    p.hasLoop l = true ↔ p.OnPath path := by
  rw [hasLoop, hpath, Option.any_some, AsPath.contains, AsPath.segments,
    AsPath.split_flatMap hcount]
  simp [OnPath]

theorem accept_spec (hloop : p.hasLoop l = true ↔ p.OnPath path)
    (hhop : (l.get? .nextHop).bind (·.value.address?) = some hop) :
    (∃ reason, p.accept resolve l = .error reason ∧ p.Objects resolve path hop reason) ∨
      ∃ g, p.Forwards resolve hop g ∧ (∀ reason, ¬p.Objects resolve path hop reason) ∧
        p.accept resolve l =
          .ok ⟨.neighbor p.peerInfo, .router, some g.addr, some g.ifindex, l⟩ := by
  rw [accept, hhop]
  by_cases hon : p.OnPath path
  · rw [if_pos (hloop.2 hon)]
    exact .inl ⟨.asLoop, rfl, hon⟩
  rw [if_neg (fun h ↦ hon (hloop.1 h))]
  by_cases hself : hop = p.localAddr
  · refine .inl ⟨.selfNextHop, ?_, hon, hself⟩
    simp only [hself, if_true]
  cases hg : (resolve hop).or p.gateway with
  | none =>
    obtain ⟨hresolve, hgateway⟩ := Option.or_eq_none_iff.1 hg
    refine .inl ⟨.nextHopUnreachable, ?_, hon, hself, hresolve, hgateway⟩
    simp only [if_neg hself, hg]
  | some g =>
    refine .inr ⟨g, forwards_iff.2 hg, ?_, ?_⟩
    · intro reason h
      cases reason with
      | asLoop => exact hon h
      | selfNextHop => exact hself h.2
      | nextHopUnreachable =>
        obtain ⟨-, -, hresolve, hgateway⟩ := h
        rw [hresolve, hgateway] at hg
        cases hg
    · simp only [if_neg hself, hg]

end Peering

namespace Session

variable {s : Session} {resolve : Ipv4 → Option Gateway} {store : Store} {reason : ImportRefusal}
  {g : Gateway}

structure TurnsDown (s : Session) (resolve : Ipv4 → Option Gateway) (store : Store) (bs : Octets)
    (reason : ImportRefusal) : Prop where
  result : (s.receive resolve store bs).result = .ok none
  unchanged : (s.receive resolve store bs).store = store
  event : .notAccepted s.peering.remoteAddr reason ∈ (s.receive resolve store bs).events

structure TakesIn (s : Session) (resolve : Ipv4 → Option Gateway) (store : Store) (bs : Octets)
    (l : AttrList) (g : Gateway) (x : Record) : Prop where
  result : (s.receive resolve store bs).result = .ok (some x)
  mem : x ∈ (s.receive resolve store bs).store.records
  origin : x.route.origin = .neighbor s.peering.peerInfo
  dest : x.route.dest = .router
  gateway : x.route.gateway = some g.addr
  ifindex : x.route.ifindex = some g.ifindex
  attrs : x.route.attrs.attrs = l.attrs

theorem result_receive_eq_error_iff (s : Session) (resolve : Ipv4 → Option Gateway) (store : Store)
    (bs : Octets) (err : SessionError) :
    (s.receive resolve store bs).result = .error err ↔
      ∃ e, decode s.peering.context bs = .error e ∧ err = .update s.peering.remoteAddr e := by
  cases hd : decode s.peering.context bs with
  | error e =>
    rw [(receive_of_error hd).2]
    simp [eq_comm]
  | ok l =>
    cases ha : s.peering.accept resolve l with
    | error reason => simp [(receive_of_refusal hd ha).2.1]
    | ok r => simp [(receive_of_accept hd ha).2]

theorem turnsDown_iff (h : decode s.peering.context bs = .ok l) :
    s.TurnsDown resolve store bs reason ↔ s.peering.accept resolve l = .error reason := by
  constructor
  · intro ht
    cases ha : s.peering.accept resolve l with
    | error reason' =>
      have hreason : reason = reason' := by simpa [receive, h, ha] using ht.event
      rw [hreason]
    | ok r =>
      have hresult := ht.result
      rw [(receive_of_accept h ha).2] at hresult
      cases hresult
  · intro ha
    obtain ⟨hstore, hresult, hevent⟩ := receive_of_refusal h ha
    exact ⟨hresult, hstore, hevent⟩

theorem takesIn_of_accept (h : decode s.peering.context bs = .ok l)
    (ha : s.peering.accept resolve l =
      .ok ⟨.neighbor s.peering.peerInfo, .router, some g.addr, some g.ifindex, l⟩) :
    ∃ x, s.TakesIn resolve store bs l g x := by
  obtain ⟨hstore, hresult⟩ := @receive_of_accept _ _ store _ _ _ h ha
  obtain ⟨hmem, m, hm, hroute⟩ := store.intern_spec
    ⟨.neighbor s.peering.peerInfo, .router, some g.addr, some g.ifindex, l⟩
  rw [← hstore] at hmem
  exact ⟨_, hresult, hmem, by rw [hroute], by rw [hroute], by rw [hroute], by rw [hroute],
    by rw [hroute, hm]⟩

/-- A message fails exactly if it cannot be read. Else its route is turned down for the first reason
that applies to the path and the next hop that were sent, and is taken in if none does. -/
theorem verdict_of_receive (s : Session) (resolve : Ipv4 → Option Gateway) (store : Store)
    (bs : Octets) :
    (∀ err, (s.receive resolve store bs).result = .error err ↔
      ∃ e, decode s.peering.context bs = .error e ∧ err = .update s.peering.remoteAddr e) ∧
    ∀ l, decode s.peering.context bs = .ok l →
      ∃ (path : List Segment) (hop : Ipv4),
        (∀ x ∈ path, x.members.length ≤ 255) ∧
        Sends bs .asPath (path.flatMap Segment.octets) ∧
        Sends bs .nextHop hop.octets ∧
        (l.get? .asPath).bind (·.value.asPath?) = some (path.flatMap Segment.octets) ∧
        (l.get? .nextHop).bind (·.value.address?) = some hop ∧
        (∀ reason, s.TurnsDown resolve store bs reason ↔
          s.peering.Objects resolve path hop reason) ∧
        ((∀ reason, ¬s.peering.Objects resolve path hop reason) →
          ∃ g x, s.peering.Forwards resolve hop g ∧ s.TakesIn resolve store bs l g x) := by
  refine ⟨s.result_receive_eq_error_iff resolve store bs, ?_⟩
  intro l h
  obtain ⟨path, hcount, hsends, hpath⟩ := exists_path_of_decode h
  obtain ⟨hop, hsends', hhop⟩ := exists_nextHop_of_decode h
  refine ⟨path, hop, hcount, hsends, hsends', hpath, hhop, ?_⟩
  have hloop : s.peering.hasLoop l = true ↔ s.peering.OnPath path :=
    Peering.hasLoop_iff hcount hpath
  rcases @Peering.accept_spec _ _ resolve _ _ hloop hhop with
    ⟨reason, ha, hreason⟩ | ⟨g, hg, hnone, ha⟩
  · refine ⟨?_, fun hnone ↦ absurd hreason (hnone reason)⟩
    intro reason'
    rw [turnsDown_iff h, ha, Except.error.injEq]
    exact ⟨fun he ↦ he ▸ hreason, hreason.unique⟩
  · refine ⟨?_, ?_⟩
    · intro reason
      rw [turnsDown_iff h, ha]
      exact iff_of_false (fun he ↦ nomatch he) (hnone reason)
    · intro _
      obtain ⟨x, hx⟩ := takesIn_of_accept h ha
      exact ⟨g, x, hg, hx⟩

def uplink : Session :=
  ⟨⟨⟨2⟩, .external, 65000, ⟨1⟩, 100, false, none, some ⟨⟨2⟩, 7⟩⟩, .ofSize 1, .zero⟩

/-- An offer of AS 65002 with the next hop 10.0.0.1. -/
def offer : Octets := [0x40, 1, 1, 0, 0x40, 2, 4, 2, 1, 0xFD, 0xEA, 0x40, 3, 4, 10, 0, 0, 1]

def offered : AttrList :=
  ⟨[⟨.bgp 1, ⟨0x40⟩, .int 0⟩, ⟨.bgp 2, ⟨0x40⟩, .asPath [2, 1, 0xFD, 0xEA]⟩,
    ⟨.bgp 3, ⟨0x40⟩, .address ⟨0x0A000001⟩⟩, ⟨.bgp 5, ⟨0x80⟩, .int 100⟩], true⟩

theorem verdict_of_receive_offer :
    decode uplink.peering.context offer = .ok offered ∧
      ∃ x, uplink.TakesIn (fun _ ↦ none) .empty offer offered ⟨⟨2⟩, 7⟩ x := by
  have hd : decode uplink.peering.context offer = .ok offered := by decide +kernel
  refine ⟨hd, ?_⟩
  obtain ⟨-, h⟩ := verdict_of_receive uplink (fun _ ↦ none) .empty offer
  obtain ⟨path, hop, hcount, -, -, hpath, hhop, -, htakes⟩ := h offered hd
  have hoctets : (offered.get? .asPath).bind (·.value.asPath?) = some [2, 1, 0xFD, 0xEA] := by
    decide +kernel
  have haddress : (offered.get? .nextHop).bind (·.value.address?) = some ⟨0x0A000001⟩ := by
    decide +kernel
  have hsplit := AsPath.split_flatMap hcount
  rw [← Option.some.inj (hoctets.symm.trans hpath)] at hsplit
  obtain rfl : path = [⟨.sequence, [65002]⟩] := congrArg Prod.fst
    (hsplit.symm.trans (@AsPath.split_flatMap [⟨.sequence, [65002]⟩] (by decide)))
  obtain rfl := Option.some.inj (haddress.symm.trans hhop)
  have hnone : ∀ reason, ¬uplink.peering.Objects (fun _ ↦ none) [⟨.sequence, [65002]⟩]
      ⟨0x0A000001⟩ reason := by
    intro reason
    cases reason <;> simp [Peering.Objects, Peering.OnPath, uplink]
  obtain ⟨g, x, hg, hx⟩ := htakes hnone
  rcases hg with hg | ⟨-, hg⟩
  · cases hg
  · cases hg
    exact ⟨x, hx⟩

end Session

end PathAttributes
