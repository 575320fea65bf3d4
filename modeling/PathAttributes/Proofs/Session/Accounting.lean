import Mathlib.Logic.Function.Basic
import PathAttributes.Proofs.Route.Interning
import PathAttributes.Proofs.Session.Admission

namespace PathAttributes

inductive SessionCall
  | update (resolve : Ipv4 → Option Gateway) (bs : Octets)
  | notify (r : Route)

inductive SessionAnswer
  | update (result : Except SessionError (Option Record))
  | notify (result : Except SessionError (Option Nat))

namespace SessionAnswer

@[simp] def isUpdate : SessionAnswer → Bool
  | update _ => true
  | notify _ => false

@[simp] def isFailed : SessionAnswer → Bool
  | update (.error _) => true
  | _ => false

@[simp] def isAccepted : SessionAnswer → Bool
  | update (.ok (some _)) => true
  | _ => false

@[simp] def isRejected : SessionAnswer → Bool
  | update (.ok none) => true
  | _ => false

@[simp] def isExported : SessionAnswer → Bool
  | notify (.ok (some _)) => true
  | _ => false

@[simp] def isWithheld : SessionAnswer → Bool
  | notify (.ok none) => true
  | _ => false

def route? : SessionAnswer → Option Route
  | update (.ok (some x)) => some x.route
  | _ => none

theorem countP_isUpdate (answers : List SessionAnswer) :
    answers.countP isUpdate =
      answers.countP isAccepted + answers.countP isRejected + answers.countP isFailed := by
  induction answers with
  | nil => rfl
  | cons a answers ih =>
    simp only [List.countP_cons, ih]
    rcases a with (_ | _ | _) | _ <;> simp <;> omega

end SessionAnswer

open SessionAnswer

namespace Session

variable {s : Session} {answers : List SessionAnswer}

def IsFresh (s : Session) : Prop := s.counters = .zero ∧ ∃ size, s.buckets = .ofSize size

theorem isFresh_ofConfig (c : Config) (n : NeighborConfig) (localAddr : Ipv4) :
    (ofConfig c n localAddr).IsFresh :=
  ⟨rfl, _, rfl⟩

/-- The counters of a session that has given these answers, which start again from zero after the
last number. -/
structure Accounts (s : Session) (answers : List SessionAnswer) : Prop where
  received : s.counters.updatesReceived = .ofNat (answers.countP isUpdate)
  accepted : s.counters.routesAccepted = .ofNat (answers.countP isAccepted)
  rejected : s.counters.routesRejected = .ofNat (answers.countP isRejected)
  exported : s.counters.routesExported = .ofNat (answers.countP isExported)
  withheld : s.counters.routesNotExported = .ofNat (answers.countP isWithheld)
  buckets : s.buckets.length ≤ answers.countP isExported

structure Tallies (s : Session) (answers : List SessionAnswer) : Prop where
  received : s.counters.updatesReceived.toNat =
    s.counters.routesAccepted.toNat + s.counters.routesRejected.toNat + answers.countP isFailed
  accepted : s.counters.routesAccepted.toNat = answers.countP isAccepted
  rejected : s.counters.routesRejected.toNat = answers.countP isRejected
  exported : s.counters.routesExported.toNat = answers.countP isExported
  withheld : s.counters.routesNotExported.toNat = answers.countP isWithheld
  buckets : s.buckets.length ≤ s.counters.routesExported.toNat

theorem IsFresh.accounts (h : s.IsFresh) : s.Accounts [] := by
  obtain ⟨hcounters, size, hbuckets⟩ := h
  refine ⟨?_, ?_, ?_, ?_, ?_, ?_⟩
  all_goals simp [hcounters, hbuckets, Counters.zero, BucketTable.length, BucketTable.ofSize]

theorem Accounts.tallies (h : s.Accounts answers) (hl : answers.length < UInt32.size) :
    s.Tallies answers := by
  have hcount (p : SessionAnswer → Bool) : (UInt32.ofNat (answers.countP p)).toNat =
      answers.countP p :=
    UInt32.toNat_ofNat_of_lt' (Nat.lt_of_le_of_lt List.countP_le_length hl)
  constructor
  · rw [h.received, h.accepted, h.rejected, hcount, hcount, hcount, countP_isUpdate]
  · rw [h.accepted, hcount]
  · rw [h.rejected, hcount]
  · rw [h.exported, hcount]
  · rw [h.withheld, hcount]
  · rw [h.exported, hcount]
    exact h.buckets

theorem Accounts.receive (h : s.Accounts answers) (resolve : Ipv4 → Option Gateway) (store : Store)
    (bs : Octets) : (s.receive resolve store bs).session.Accounts
      (answers ++ [.update (s.receive resolve store bs).result]) := by
  have hr := s.receives resolve store bs
  generalize (s.receive resolve store bs).session = s', (s.receive resolve store bs).store = store',
    (s.receive resolve store bs).result = result at hr ⊢
  obtain ⟨hreceived, haccepted, hrejected, hexported, hwithheld, hbuckets⟩ := h
  cases hr <;> constructor <;> simp [*]

theorem Accounts.notify (h : s.Accounts answers) (r : Route) :
    (s.notify r).session.Accounts (answers ++ [.notify (s.notify r).result]) := by
  have hn := s.notifies r
  generalize (s.notify r).session = s', (s.notify r).result = result at hn ⊢
  obtain ⟨hreceived, haccepted, hrejected, hexported, hwithheld, hbuckets⟩ := h
  cases hn with
  | withheld | failed => constructor <;> simp [*]
  | sent ht =>
    have hbuckets' := ht.trans (Nat.succ_le_succ hbuckets)
    constructor <;> simp [*]

end Session

/-- Sessions that keep their routes in one store. -/
structure Speaker (ι : Type) where
  sessions : ι → Session
  store : Store

namespace Speaker

variable {ι : Type} [DecidableEq ι] {s : Speaker ι} {i : ι} {call : SessionCall}
  {calls : List (ι × SessionCall)} {routes : List Route}

def step (s : Speaker ι) (i : ι) : SessionCall → Speaker ι × SessionAnswer
  | .update resolve bs =>
    let x := (s.sessions i).receive resolve s.store bs
    (⟨Function.update s.sessions i x.session, x.store⟩, .update x.result)
  | .notify r =>
    let x := (s.sessions i).notify r
    (⟨Function.update s.sessions i x.session, s.store⟩, .notify x.result)

def run : Speaker ι → List (ι × SessionCall) → Speaker ι × List (ι × SessionAnswer)
  | s, [] => (s, [])
  | s, (i, call) :: calls =>
    let x := s.step i call
    let rest := x.1.run calls
    (rest.1, (i, x.2) :: rest.2)

def answersOf (i : ι) (log : List (ι × SessionAnswer)) : List SessionAnswer :=
  (log.filter (fun x ↦ x.1 = i)).map (·.2)

def admitted? (s : Speaker ι) : ι × SessionCall → Option Route
  | (i, .update resolve bs) => (s.sessions i).peering.accepted? resolve bs
  | (_, .notify _) => none

structure Frame (s : Speaker ι) (i : ι) (call : SessionCall) : Prop where
  peering : ∀ j, ((s.step i call).1.sessions j).peering = (s.sessions j).peering
  others : ∀ j, j ≠ i → (s.step i call).1.sessions j = s.sessions j
  buckets : ∀ resolve bs, call = .update resolve bs →
    ∀ j, ((s.step i call).1.sessions j).buckets = (s.sessions j).buckets
  store : ∀ r, call = .notify r → (s.step i call).1.store = s.store
  unaccepted : (∀ x, (s.step i call).2 ≠ .update (.ok (some x))) →
    (s.step i call).1.store = s.store

theorem sessions_step_self (s : Speaker ι) (i : ι) :
    (∀ resolve bs, (s.step i (.update resolve bs)).1.sessions i =
      ((s.sessions i).receive resolve s.store bs).session) ∧
    ∀ r, (s.step i (.notify r)).1.sessions i = ((s.sessions i).notify r).session :=
  ⟨fun _ _ ↦ Function.update_self .., fun _ ↦ Function.update_self ..⟩

theorem sessions_step_of_ne {j : ι} (h : j ≠ i) :
    (s.step i call).1.sessions j = s.sessions j := by
  cases call <;> exact Function.update_of_ne h ..

theorem frame (s : Speaker ι) (i : ι) (call : SessionCall) : s.Frame i call := by
  refine ⟨fun j ↦ ?_, fun j ↦ sessions_step_of_ne, ?_, ?_, ?_⟩
  · by_cases hj : j = i
    · subst hj
      cases call with
      | update resolve bs =>
        rw [(s.sessions_step_self j).1]
        exact ((s.sessions j).receives resolve s.store bs).fixed.1
      | notify r =>
        rw [(s.sessions_step_self j).2]
        exact ((s.sessions j).notifies r).peering
    · rw [sessions_step_of_ne hj]
  · rintro resolve bs rfl j
    by_cases hj : j = i
    · subst hj
      rw [(s.sessions_step_self j).1]
      exact ((s.sessions j).receives resolve s.store bs).fixed.2
    · rw [sessions_step_of_ne hj]
  · rintro r rfl
    rfl
  · intro hn
    cases call with
    | update resolve bs =>
      apply ((s.sessions i).receives resolve s.store bs).store_eq
      exact fun x hx ↦ hn x (congrArg SessionAnswer.update hx)
    | notify r => rfl

theorem admitted?_step (s : Speaker ι) (i : ι) (call : SessionCall) :
    (s.step i call).1.admitted? = s.admitted? := by
  funext c
  rcases c with ⟨j, _ | _⟩
  · simp only [admitted?, (s.frame i call).peering]
  · rfl

theorem peering_run (s : Speaker ι) (calls : List (ι × SessionCall)) (i : ι) :
    ((s.run calls).1.sessions i).peering = (s.sessions i).peering := by
  induction calls generalizing s with
  | nil => rfl
  | cons c calls ih => exact (ih _).trans ((s.frame c.1 c.2).peering i)

theorem answersOf_cons (i : ι) (x : ι × SessionAnswer) (log : List (ι × SessionAnswer)) :
    answersOf i (x :: log) = answersOf i [x] ++ answersOf i log := by
  rw [answersOf, answersOf, answersOf, ← List.map_append, ← List.filter_append,
    List.singleton_append]

theorem map_fst_run (s : Speaker ι) (calls : List (ι × SessionCall)) :
    (s.run calls).2.map Prod.fst = calls.map Prod.fst := by
  induction calls generalizing s with
  | nil => rfl
  | cons c calls ih => exact congrArg (c.1 :: ·) (ih _)

theorem length_answersOf_run (s : Speaker ι) (calls : List (ι × SessionCall)) (i : ι) :
    (answersOf i (s.run calls).2).length = calls.countP (fun c ↦ c.1 = i) := by
  have hcount {α : Type} (l : List (ι × α)) :
      l.countP (fun c ↦ c.1 = i) = (l.map Prod.fst).countP (· = i) := by
    rw [List.countP_map]
    rfl
  rw [answersOf, List.length_map, ← List.countP_eq_length_filter, hcount, hcount, map_fst_run]

theorem accounts_step {answers : ι → List SessionAnswer}
    (h : ∀ i, (s.sessions i).Accounts (answers i)) (i : ι) (call : SessionCall) (j : ι) :
    ((s.step i call).1.sessions j).Accounts
      (answers j ++ answersOf j [(i, (s.step i call).2)]) := by
  by_cases hj : i = j
  · subst hj
    have hone : answersOf i [(i, (s.step i call).2)] = [(s.step i call).2] := by simp [answersOf]
    rw [hone]
    cases call with
    | update resolve bs =>
      rw [(s.sessions_step_self i).1]
      exact (h i).receive resolve s.store bs
    | notify r =>
      rw [(s.sessions_step_self i).2]
      exact (h i).notify r
  · have hnone : answersOf j [(i, (s.step i call).2)] = [] := by simp [answersOf, hj]
    rw [hnone, List.append_nil, sessions_step_of_ne (Ne.symm hj)]
    exact h j

theorem accounts_run {answers : ι → List SessionAnswer}
    (h : ∀ i, (s.sessions i).Accounts (answers i)) (calls : List (ι × SessionCall)) (j : ι) :
    ((s.run calls).1.sessions j).Accounts (answers j ++ answersOf j (s.run calls).2) := by
  -- The answers before a call grow with it, so they are any that the sessions account for.
  induction calls generalizing s answers with
  | nil => simpa [run, answersOf] using h j
  | cons c calls ih =>
    have hrun := ih (accounts_step h c.1 c.2)
    rw [List.append_assoc, ← answersOf_cons] at hrun
    exact hrun

/-- A call adds to the store the route that is accepted, and answers with its record. -/
theorem holds_step (h : s.store.Holds routes) (i : ι) (call : SessionCall) :
    (s.step i call).1.store.Holds (routes ++ (s.admitted? (i, call)).toList) ∧
      (s.step i call).2.route? = s.admitted? (i, call) := by
  cases call with
  | update resolve bs =>
    have hr := (s.sessions i).receives resolve s.store bs
    simp only [step, admitted?]
    generalize ((s.sessions i).receive resolve s.store bs).session = s',
      ((s.sessions i).receive resolve s.store bs).store = store',
      ((s.sessions i).receive resolve s.store bs).result = result at hr ⊢
    cases hr with
    | failed haccept | rejected haccept =>
      rw [haccept]
      exact ⟨by simpa using h, rfl⟩
    | accepted haccept =>
      obtain ⟨hholds, -, hroute⟩ := h.intern (Peering.admits_of_accepted? haccept).sorted
      rw [haccept]
      exact ⟨hholds, congrArg some hroute⟩
  | notify r => exact ⟨by simpa [step, admitted?] using h, rfl⟩

/-- By induction on the calls: the store has the routes that were accepted. -/
theorem holds_run (h : s.store.Holds routes) (calls : List (ι × SessionCall)) :
    (s.run calls).1.store.Holds (routes ++ calls.filterMap s.admitted?) ∧
      (s.run calls).2.filterMap (·.2.route?) = calls.filterMap s.admitted? := by
  induction calls generalizing s routes with
  | nil => exact ⟨by simpa [run] using h, rfl⟩
  | cons c calls ih =>
    obtain ⟨hstep, hanswer⟩ := holds_step h c.1 c.2
    obtain ⟨hrun, hanswers⟩ := ih hstep
    rw [admitted?_step] at hrun hanswers
    have hroutes : (s.admitted? c).toList ++ calls.filterMap s.admitted? =
        (c :: calls).filterMap s.admitted? := by
      rw [List.filterMap_cons]
      cases s.admitted? c <;> rfl
    refine ⟨?_, ?_⟩
    · rw [List.append_assoc, hroutes] at hrun
      exact hrun
    · rw [run, List.filterMap_cons, List.filterMap_cons, hanswer, hanswers]

omit [DecidableEq ι] in
theorem admits_of_admitted? {c : ι × SessionCall} {r : Route} (h : s.admitted? c = some r) :
    ∃ i, (s.sessions i).peering.Admits r := by
  rcases c with ⟨i, _ | _⟩
  · exact ⟨i, Peering.admits_of_accepted? h⟩
  · cases h

/-- After any calls on new sessions the counters are those of the answers, and the store has the
routes that were accepted, each once and as it must be. -/
theorem accounts_of_fresh (sessions : ι → Session) (hfresh : ∀ i, (sessions i).IsFresh)
    (calls : List (ι × SessionCall)) (hcalls : ∀ i, calls.countP (fun c ↦ c.1 = i) < UInt32.size) :
    ∃ (s : Speaker ι) (log : List (ι × SessionAnswer)),
      (⟨sessions, .empty⟩ : Speaker ι).run calls = (s, log) ∧
      (∀ i, (s.sessions i).peering = (sessions i).peering ∧
        (s.sessions i).Tallies (answersOf i log)) ∧
      (∀ (t : Speaker ι) (i : ι) (call : SessionCall), t.Frame i call) ∧
      log.filterMap (·.2.route?) = calls.filterMap (⟨sessions, .empty⟩ : Speaker ι).admitted? ∧
      s.store.size = (log.filterMap (·.2.route?)).dedup.length ∧
      (∀ r, (∃ x ∈ s.store.records, x.route = r) ↔ r ∈ log.filterMap (·.2.route?)) ∧
      ∀ x ∈ s.store.records, ∃ i, (sessions i).peering.Admits x.route := by
  let start : Speaker ι := ⟨sessions, .empty⟩
  obtain ⟨hholds, hroutes⟩ := holds_run (s := start) Store.holds_empty calls
  have haccounts := accounts_run (s := start) (fun i ↦ (hfresh i).accounts) calls
  rw [List.nil_append] at hholds
  have hmem (r : Route) : (∃ x ∈ (start.run calls).1.store.records, x.route = r) ↔
      r ∈ calls.filterMap start.admitted? := List.mem_map.symm.trans (hholds.mem r)
  refine ⟨_, _, rfl, fun i ↦ ⟨peering_run start calls i, ?_⟩, frame, hroutes, ?_, ?_, ?_⟩
  · apply (haccounts i).tallies
    rw [List.nil_append, length_answersOf_run]
    exact hcalls i
  · rw [hroutes]
    exact hholds.size_eq
  · rw [hroutes]
    exact hmem
  · intro x hx
    obtain ⟨c, -, hc⟩ := List.mem_filterMap.1 ((hmem x.route).1 ⟨x, hx, rfl⟩)
    exact admits_of_admitted? hc

def pair (isFirst : Bool) : Session :=
  .ofConfig ⟨65000, 100, 1, []⟩ ⟨if isFirst then ⟨2⟩ else ⟨3⟩, 65000, false⟩ ⟨1⟩

def sound : SessionCall := .update (fun _ ↦ some ⟨⟨2⟩, 4⟩)
  [0x40, 1, 1, 0, 0x40, 2, 0, 0x40, 3, 4, 10, 0, 0, 1]

def pairCalls : List (Bool × SessionCall) :=
  [(true, sound), (false, sound), (true, .update (fun _ ↦ none) []), (true, sound)]

theorem accounts_of_fresh_pair :
    ∃ (s : Speaker Bool) (log : List (Bool × SessionAnswer)),
      (⟨pair, .empty⟩ : Speaker Bool).run pairCalls = (s, log) ∧ s.store.size = 2 ∧
      (s.sessions true).Tallies (answersOf true log) ∧
      ∀ x ∈ s.store.records, ∃ i, (pair i).peering.Admits x.route := by
  have hcalls : ∀ i, pairCalls.countP (fun c ↦ c.1 = i) < UInt32.size := by decide
  obtain ⟨s, log, hrun, hsessions, -, hroutes, hsize, -, hrecords⟩ :=
    accounts_of_fresh pair (fun _ ↦ Session.isFresh_ofConfig ..) pairCalls hcalls
  refine ⟨s, log, hrun, ?_, (hsessions true).2, hrecords⟩
  rw [hsize, hroutes]
  decide +kernel

end Speaker

end PathAttributes
