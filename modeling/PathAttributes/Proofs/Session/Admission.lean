import PathAttributes.Proofs.Section.Delivery
import PathAttributes.Proofs.Session.Export

namespace PathAttributes

open AttrList

namespace Peering

variable {p : Peering} {resolve : Ipv4 → Option Gateway} {l : AttrList} {r : Route} {bs : Octets}

def accepted? (p : Peering) (resolve : Ipv4 → Option Gateway) (bs : Octets) : Option Route :=
  match decode p.context bs with
  | .error _ => none
  | .ok l =>
    match p.accept resolve l with
    | .error _ => none
    | .ok r => some r

/-- A route as it is accepted from the peer: with an ordered list that has what it must have, a path
on which the speaker's own AS is not, and a next hop other than the speaker. -/
structure Admits (p : Peering) (r : Route) : Prop where
  origin : r.origin = .neighbor p.peerInfo
  dest : r.dest = .router
  gateway : ∃ g : Gateway, r.gateway = some g.addr ∧ r.ifindex = some g.ifindex
  sorted : r.attrs.sorted = true
  ascending : Ascending r.attrs.attrs
  wellFormed : ∀ a ∈ r.attrs.attrs, a.id.ns = .bgp ∧ a.WellFormed
  present : ∀ type ∈ [AttrType.origin, .asPath, .nextHop, .localPref],
    ∃ a, r.attrs.get? type = some a
  path : ∃ path, (r.attrs.get? .asPath).bind (·.value.asPath?) = some path ∧
    AsPath.isValid path = true ∧ AsPath.contains path p.localAs = false
  nextHop : ∃ hop, (r.attrs.get? .nextHop).bind (·.value.address?) = some hop ∧
    hop.isUsable = true ∧ hop ≠ p.localAddr

theorem exists_of_accept (h : p.accept resolve l = .ok r) :
    p.hasLoop l = false ∧ ∃ hop gateway,
      (l.get? .nextHop).bind (·.value.address?) = some hop ∧ hop ≠ p.localAddr ∧
      (resolve hop).or p.gateway = some gateway ∧
      r = ⟨.neighbor p.peerInfo, .router, some gateway.addr, some gateway.ifindex, l⟩ := by
  rw [accept] at h
  split at h
  · cases h
  rename_i hloop
  split at h
  · cases h
  rename_i hop hhop
  split at h
  · cases h
  rename_i hne
  split at h
  · cases h
  rename_i gateway hgateway
  cases h
  exact ⟨by simpa using hloop, hop, gateway, hhop, hne, hgateway, rfl⟩

theorem admits_of_accept (hl : l.IsRead) (h : p.accept resolve l = .ok r) : p.Admits r := by
  obtain ⟨hloop, hop, gateway, hhop, hne, -, rfl⟩ := exists_of_accept h
  obtain ⟨path, hpath, hwhole⟩ := hl.exists_asPath
  rw [hasLoop, hpath, Option.any_some] at hloop
  exact {
    origin := rfl
    dest := rfl
    gateway := ⟨gateway, rfl, rfl⟩
    sorted := hl.sorted
    ascending := hl.ascending
    wellFormed := fun a ha ↦ ⟨hl.ns ha, hl.wellFormed ha⟩
    present := fun type hm ↦ hl.exists_get? type hm
    path := ⟨path, hpath, (AsPath.isValid_iff path).2 hwhole, hloop⟩
    nextHop := ⟨hop, hhop, hl.isUsable_nextHop hhop, hne⟩ }

theorem admits_of_accepted? (h : p.accepted? resolve bs = some r) : p.Admits r := by
  rw [accepted?] at h
  split at h
  · cases h
  · rename_i l hd
    split at h
    · cases h
    · rename_i ha
      cases h
      exact admits_of_accept ⟨_, _, hd⟩ ha

end Peering

namespace Session

variable {s s' : Session} {store store' : Store} {resolve : Ipv4 → Option Gateway} {bs : Octets}
  {result : Except SessionError (Option Record)}

inductive Receives (s : Session) (resolve : Ipv4 → Option Gateway) (store : Store) (bs : Octets) :
    Session → Store → Except SessionError (Option Record) → Prop
  | failed {e : SessionError} (h : s.peering.accepted? resolve bs = none) :
    Receives s resolve store bs
      { s with counters.updatesReceived := s.counters.updatesReceived + 1 } store (.error e)
  | rejected (h : s.peering.accepted? resolve bs = none) :
    Receives s resolve store bs
      { s with
        counters.updatesReceived := s.counters.updatesReceived + 1
        counters.routesRejected := s.counters.routesRejected + 1 } store (.ok none)
  | accepted {r : Route} (h : s.peering.accepted? resolve bs = some r) :
    Receives s resolve store bs
      { s with
        counters.updatesReceived := s.counters.updatesReceived + 1
        counters.routesAccepted := s.counters.routesAccepted + 1 }
      (store.intern r).1 (.ok (some (store.intern r).2))

theorem receives (s : Session) (resolve : Ipv4 → Option Gateway) (store : Store) (bs : Octets) :
    s.Receives resolve store bs (s.receive resolve store bs).session
      (s.receive resolve store bs).store (s.receive resolve store bs).result := by
  cases hd : decode s.peering.context bs with
  | error e =>
    simp only [receive, hd]
    exact .failed (by simp only [Peering.accepted?, hd])
  | ok l =>
    cases ha : s.peering.accept resolve l with
    | error reason =>
      simp only [receive, hd, ha]
      exact .rejected (by simp only [Peering.accepted?, hd, ha])
    | ok r =>
      simp only [receive, hd, ha]
      exact .accepted (by simp only [Peering.accepted?, hd, ha])

inductive Notifies (s : Session) : Session → Except SessionError (Option Nat) → Prop
  | withheld :
    Notifies s { s with counters.routesNotExported := s.counters.routesNotExported + 1 } (.ok none)
  | failed {e : SessionError} : Notifies s s (.error e)
  | sent {t : BucketTable} {id : Nat} (h : t.length ≤ s.buckets.length + 1) :
    Notifies s
      { s with buckets := t, counters.routesExported := s.counters.routesExported + 1 }
      (.ok (some id))

theorem notifies (s : Session) (r : Route) :
    s.Notifies (s.notify r).session (s.notify r).result := by
  cases ho : s.peering.overrides r with
  | error reason =>
    simp only [notify, ho]
    exact .withheld
  | ok l =>
    cases hg : (s.buckets.getOrCreate l r.attrs).result with
    | error e =>
      obtain ⟨type⟩ := e
      obtain ⟨htable, -⟩ := BucketTable.missing_of_error hg
      simp only [notify, ho, hg, htable]
      exact .failed
    | ok id =>
      simp only [notify, ho, hg]
      exact .sent (s.buckets.length_getOrCreate_le l r.attrs)

theorem Receives.fixed (h : s.Receives resolve store bs s' store' result) :
    s'.peering = s.peering ∧ s'.buckets = s.buckets := by
  cases h <;> exact ⟨rfl, rfl⟩

theorem Receives.store_eq (h : s.Receives resolve store bs s' store' result)
    (hn : ∀ x, result ≠ .ok (some x)) : store' = store := by
  cases h with
  | failed | rejected => rfl
  | accepted => exact absurd rfl (hn _)

theorem Notifies.peering {result : Except SessionError (Option Nat)} (h : s.Notifies s' result) :
    s'.peering = s.peering := by
  cases h <;> rfl

end Session

end PathAttributes
