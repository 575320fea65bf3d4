import PathAttributes.Proofs.AttrList.Union
import PathAttributes.Proofs.BucketTable.Identity
import PathAttributes.Proofs.Route.Interning
import PathAttributes.Proofs.Session.Admission
import PathAttributes.Proofs.Session.Rewrite

namespace PathAttributes

open AttrList

/-- The order of ids: by namespace in the order of declaration, then by code. -/
def AttrId.Precedes (i j : AttrId) : Prop :=
  Named.rank i.ns < Named.rank j.ns ∨ i.ns = j.ns ∧ i.code < j.code

theorem AttrId.number_lt_iff {i j : AttrId} : i.number < j.number ↔ i.Precedes j := by
  have hns : i.ns = j.ns ↔ Named.rank i.ns = Named.rank j.ns :=
    ⟨congrArg Named.rank, Named.rank_injective⟩
  have hi := i.code.toNat_lt
  have hj := j.code.toNat_lt
  rw [number, number, Namespace.toNat_code, Namespace.toNat_code, Precedes, hns,
    UInt8.lt_iff_toNat_lt]
  omega

def BucketCall.lists : BucketCall → List AttrList
  | getOrCreate high low | lookup high low => [high, low]
  | get _ => []

/-- The lists that arise by one operation after the other. -/
inductive AttrList.Arises : AttrList → Prop
  | empty : Arises .empty
  | ofList (attrs : List Attr) : Arises (.ofList attrs)
  | push {l : AttrList} (hl : Arises l) (a : Attr) : Arises (l.push a)
  | sort {l : AttrList} (hl : Arises l) : Arises l.sort
  | normalize {l : AttrList} (hl : Arises l) : Arises l.normalize
  | retain {l : AttrList} (hl : Arises l) (ns : Namespace) : Arises (l.retain ns)
  | merge {c : Chain} (hc : ∀ l ∈ c, Arises l) : Arises c.merge
  | decode {context : Context} {bs : Octets} {l : AttrList}
    (h : AttrList.decode context bs = .ok l) : Arises l
  | overrides {p : Peering} {r : Route} {l : AttrList} (hr : Arises r.attrs)
    (h : p.overrides r = .ok l) : Arises l
  | bucket {size id : Nat} {calls : List BucketCall} {b : Bucket}
    (hcalls : ∀ call ∈ calls, ∀ l ∈ call.lists, Arises l)
    (hb : (answers BucketTable.answer (.ofSize size) calls).1.get? id = some b) : Arises b.attrs
  | accept {p : Peering} {resolve : Ipv4 → Option Gateway} {l : AttrList} {r : Route}
    (hl : Arises l) (h : p.accept resolve l = .ok r) : Arises r.attrs
  | record {routes : List Route} {x : Record} (hroutes : ∀ r ∈ routes, Arises r.attrs)
    (hx : x ∈ (Store.empty.internAll routes).records) : Arises x.route.attrs

namespace AttrList

variable {l : AttrList}

theorem Truthful.sort (h : l.Truthful) : l.sort.Truthful := fun _ ↦ h.ascending_sort

theorem Truthful.normalize (h : l.Truthful) : l.normalize.Truthful :=
  fun _ ↦ h.ascending_sort.map_canonicalAttr

theorem Truthful.retain (h : l.Truthful) (ns : Namespace) : (l.retain ns).Truthful :=
  fun hs ↦ (h hs).filter _

theorem truthful_of_overrides {p : Peering} {r : Route} (h : p.overrides r = .ok l) :
    l.Truthful := by
  rcases p.overrides_cases r with ⟨e, he, -⟩ | ⟨attrs, hattrs, -, -⟩
  · rw [h] at he
    cases he
  · rw [h] at hattrs
    cases hattrs
    exact fun _ ↦ ascending_firsts attrs

/-- Each operation leaves the mark true. -/
theorem Arises.truthful (h : l.Arises) : l.Truthful := by
  induction h with
  | empty => exact nofun
  | ofList attrs => exact nofun
  | push hl a ih => exact nofun
  | sort hl ih => exact ih.sort
  | normalize hl ih => exact ih.normalize
  | retain hl ns ih => exact ih.retain ns
  | merge hc ih => exact Chain.truthful_merge _
  | decode h =>
    obtain ⟨ts, -, -, hs⟩ := exists_admissible_of_decode h
    exact fun _ ↦ hs.ascending
  | overrides hr h ih => exact truthful_of_overrides h
  | bucket hcalls hb ih => exact fun _ ↦ BucketTable.ascending_of_get? hb
  | accept hl h ih =>
    obtain ⟨-, hop, gateway, -, -, -, rfl⟩ := Peering.exists_of_accept h
    exact ih
  | record hroutes hx ih =>
    rcases Store.mem_of_mem_internAll hx with hx | ⟨r, hr, he⟩
    · cases hx
    · exact he ▸ ih r hr

/-- A list that is marked as sorted is in order of ids, however it arose. So what is found in a list
is always the first attribute of the id, be it looked for by halves or one after the other. -/
theorem found_of_arises (h : l.Arises) :
    (l.sorted = true → l.attrs.Pairwise (fun a b ↦ a.id.Precedes b.id)) ∧
      (∀ id a, l.find? id = some a ↔
        ∃ before after, l.attrs = before ++ a :: after ∧ a.id = id ∧ ∀ b ∈ before, b.id ≠ id) ∧
      ∀ id, l.find? id = none ↔ ∀ a ∈ l.attrs, a.id ≠ id := by
  have hfind (id : AttrId) : l.find? id = first? l.attrs id := find?_eq_first? h.truthful id
  refine ⟨fun hs ↦ (h.truthful hs).imp AttrId.number_lt_iff.1, ?_, ?_⟩
  · intro id a
    rw [hfind, first?, List.find?_eq_some_iff_append]
    simp only [decide_eq_true_eq, Bool.not_eq_true', decide_eq_false_iff_not]
    constructor
    · rintro ⟨hid, before, after, he, hb⟩
      exact ⟨before, after, he, hid, hb⟩
    · rintro ⟨before, after, he, hid, hb⟩
      exact ⟨hid, before, after, he, hb⟩
  · intro id
    rw [hfind, first?_eq_none_iff]

def mixed : AttrList :=
  ((Chain.merge [(ofList [⟨.bgp 5, ⟨0x80⟩, .int 7⟩]).push ⟨⟨.ospf, 1⟩, ⟨0⟩, .int 10⟩,
    (ofList [⟨.bgp 5, ⟨0x80⟩, .int 8⟩, ⟨.bgp 4, ⟨0x80⟩, .int 1⟩]).sort]).retain .bgp).normalize

theorem found_of_arises_mixed :
    mixed.Arises ∧ mixed.attrs.Pairwise (fun a b ↦ a.id.Precedes b.id) ∧
      mixed.find? (.bgp 5) = some ⟨.bgp 5, ⟨0x80⟩, .int 7⟩ ∧ mixed.find? (.bgp 6) = none := by
  have harises : mixed.Arises := by
    refine .normalize (.retain (.merge ?_) .bgp)
    intro l hl
    simp only [List.mem_cons, List.not_mem_nil, or_false] at hl
    rcases hl with rfl | rfl
    · exact .push (.ofList _) _
    · exact .sort (.ofList _)
  have hattrs : mixed.attrs = [⟨.bgp 4, ⟨0x80⟩, .int 1⟩, ⟨.bgp 5, ⟨0x80⟩, .int 7⟩] := by
    decide +kernel
  obtain ⟨hordered, hfound, hnone⟩ := found_of_arises harises
  refine ⟨harises, hordered rfl, ?_, (hnone _).2 ?_⟩
  · exact (hfound _ _).2 ⟨[⟨.bgp 4, ⟨0x80⟩, .int 1⟩], [], hattrs, rfl, by decide⟩
  · rw [hattrs]
    decide

end AttrList

end PathAttributes
