import PathAttributes.Session.Export

namespace PathAttributes

open AttrList

def Route.path (r : Route) : Blob := ((r.attrs.get? .asPath).bind (·.value.asPath?)).getD []

namespace Peering

variable {p : Peering} {r : Route} {peer : PeerInfo}

/-- A learned route is not sent back to its peer, not from one internal peer to another, and not
with a path that is too long. -/
def Refuses (p : Peering) (r : Route) : Prop :=
  ∃ peer, r.origin = .neighbor peer ∧
    (peer.remoteAddr = p.remoteAddr ∨
      (peer.peerType = .internal ∧ peer.localAs = p.localAs ∧ p.peerType = .internal) ∨
      (p.peerType = .external ∧ Blob.limit < (AsPath.extended r.path p.localAs).length))

def nextHopOver (p : Peering) (r : Route) : List Attr :=
  if p.keepsNextHop r then [] else [.bgp .nextHop (.address p.localAddr)]

def originOf (source : RouteSource) : Attr :=
  .bgp .origin (.int
    (Numbered.code (if source.isExternal then Origin.incomplete else .igp)).toUInt32)

def firstPath (p : Peering) : Blob :=
  match p.peerType with
  | .internal => []
  | .external => AsPath.extended [] p.localAs

/-- The attributes that hide those of a route which is sent. -/
inductive Rewrites (p : Peering) (r : Route) : List Attr → Prop
  | within {peer : PeerInfo} (ho : r.origin = .neighbor peer) (hp : p.peerType = .internal) :
    Rewrites p r (p.nextHopOver r)
  | across {peer : PeerInfo} (ho : r.origin = .neighbor peer) (hp : p.peerType = .external)
    (hl : (AsPath.extended r.path p.localAs).length ≤ Blob.limit) :
    Rewrites p r
      (.bgp .asPath (.asPath (AsPath.extended r.path p.localAs)) :: p.nextHopOver r)
  | originated {source : RouteSource} (ho : r.origin = .protocol source) :
    Rewrites p r [originOf source, .bgp .asPath (.asPath p.firstPath),
      .bgp .nextHop (.address (p.nextHopOf r))]

theorem ownPath_eq (p : Peering) (path : Blob) :
    p.ownPath path =
      if (AsPath.extended path p.localAs).length ≤ Blob.limit then
        .ok (.bgp .asPath (.asPath (AsPath.extended path p.localAs)))
      else .error .asPathOverflow := by
  by_cases hl : (AsPath.extended path p.localAs).length ≤ Blob.limit <;>
    simp [ownPath, AsPath.prepend?, Blob.ofOctets?, hl]

theorem length_firstPath_le (p : Peering) : p.firstPath.length ≤ Blob.limit := by
  rw [firstPath]
  cases p.peerType with
  | internal => exact Nat.zero_le _
  | external =>
    simp only [AsPath.length_extended]
    decide

theorem creations_eq (p : Peering) (r : Route) (source : RouteSource) :
    p.creations r source = .ok [originOf source, .bgp .asPath (.asPath p.firstPath),
      .bgp .nextHop (.address (p.nextHopOf r))] := by
  have hl := p.length_firstPath_le
  simp only [creations, firstPath] at hl ⊢
  cases hp : p.peerType with
  | internal => rfl
  | external =>
    simp only [hp] at hl
    simp only [ownPath_eq, if_pos hl]
    rfl

theorem updates_of_internal (hp : p.peerType = .internal) (r : Route) :
    p.updates r = .ok (p.nextHopOver r) := by
  simp only [updates, hp]
  rfl

theorem updates_of_external (hp : p.peerType = .external) (r : Route) :
    p.updates r =
      if (AsPath.extended r.path p.localAs).length ≤ Blob.limit then
        .ok (.bgp .asPath (.asPath (AsPath.extended r.path p.localAs)) :: p.nextHopOver r)
      else .error .asPathOverflow := by
  have hbind : p.updates r = p.ownPath r.path >>= fun a ↦ pure (a :: p.nextHopOver r) := by
    simp only [updates, hp]
    rfl
  rw [hbind, ownPath_eq]
  by_cases hl : (AsPath.extended r.path p.localAs).length ≤ Blob.limit
  · simp only [if_pos hl]
    rfl
  · simp only [if_neg hl]
    rfl

theorem isIbgpToIbgp_iff :
    p.isIbgpToIbgp peer = true ↔
      peer.peerType = .internal ∧ peer.localAs = p.localAs ∧ p.peerType = .internal := by
  simp only [isIbgpToIbgp, Bool.and_eq_true, decide_eq_true_eq, and_assoc]
  exact and_left_comm

/-- A route is either refused or sent, and what is put over its attributes is laid down. -/
theorem overrides_cases (p : Peering) (r : Route) :
    (∃ e, p.overrides r = .error e ∧ p.Refuses r) ∨
      ∃ attrs, p.overrides r = .ok (ofList attrs).sort ∧ ¬p.Refuses r ∧ p.Rewrites r attrs := by
  cases ho : r.origin with
  | protocol source =>
    refine .inr ⟨_, ?_, ?_, .originated ho⟩
    · simp only [overrides, ho, creations_eq]
      rfl
    · rintro ⟨peer, hpeer, -⟩
      rw [ho] at hpeer
      cases hpeer
  | neighbor peer =>
    by_cases hpoison : peer.remoteAddr = p.remoteAddr
    · refine .inl ⟨.poison, ?_, peer, ho, .inl hpoison⟩
      simp [overrides, ho, hpoison, bind, Except.bind]
    by_cases hib : p.isIbgpToIbgp peer = true
    · refine .inl ⟨.ibgpToIbgp, ?_, peer, ho, .inr (.inl (isIbgpToIbgp_iff.1 hib))⟩
      simp [overrides, ho, hpoison, hib, bind, Except.bind]
    have hupdates : p.overrides r = p.updates r >>= fun attrs ↦ pure (ofList attrs).sort := by
      simp only [overrides, ho, if_neg hpoison, if_neg hib]
    rw [isIbgpToIbgp_iff] at hib
    -- Only the length of the path is left to speak against the route.
    have hrefuses (h : ¬(p.peerType = .external ∧
        Blob.limit < (AsPath.extended r.path p.localAs).length)) : ¬p.Refuses r := by
      rintro ⟨peer', hpeer, hr⟩
      rw [ho] at hpeer
      cases hpeer
      rcases hr with hr | hr | hr
      · exact hpoison hr
      · exact hib hr
      · exact h hr
    cases hp : p.peerType with
    | internal =>
      refine .inr ⟨_, ?_, hrefuses (by simp [hp]), .within ho hp⟩
      rw [hupdates, updates_of_internal hp]
      rfl
    | external =>
      by_cases hl : (AsPath.extended r.path p.localAs).length ≤ Blob.limit
      · refine .inr ⟨_, ?_, hrefuses (by simp [hl]), .across ho hp hl⟩
        rw [hupdates, updates_of_external hp, if_pos hl]
        rfl
      · refine .inl ⟨.asPathOverflow, ?_, peer, ho, .inr (.inr ⟨hp, Nat.lt_of_not_le hl⟩)⟩
        rw [hupdates, updates_of_external hp, if_neg hl]
        rfl

end Peering

end PathAttributes
