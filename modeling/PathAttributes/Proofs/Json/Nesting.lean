import PathAttributes.Json.Parser
import PathAttributes.Json.Printer
import PathAttributes.Proofs.Json.Symbols

namespace PathAttributes.Json

open Token (Apart)

inductive IsWritable : Json → Prop
  | null : IsWritable null
  | bool (b : Bool) : IsWritable (bool b)
  | natural (n : Nat) : IsWritable (natural n)
  | number {w : List Char} : (Token.word w).IsWritable → ofWord? w = some (number w) →
      IsWritable (number w)
  | string {ps : List Piece} : (∀ p ∈ ps, p.IsWritable) → IsWritable (string ps)
  | array {js : List Json} : (∀ j ∈ js, IsWritable j) → IsWritable (array js)
  | object {ms : List (List Piece × Json)} : (∀ m ∈ ms, ∀ p ∈ m.1, p.IsWritable) →
      (∀ m ∈ ms, IsWritable m.2) → IsWritable (object ms)

theorem isWritable_decimal (n : Nat) : (Token.word (Numeral.decimal n)).IsWritable := by
  refine ⟨Numeral.decimal_ne_nil n, fun c hc ↦ ?_⟩
  have hd : c.isDigit = true := Numeral.isDigit_of_mem_decimal hc
  simp [Token.isWordChar, Char.isAlphanum, hd]

theorem ofWord?_decimal (n : Nat) : ofWord? (Numeral.decimal n) = some (natural n) := by
  have hname {w : List Char} {c : Char} (hc : c ∈ w) (hd : c.isDigit = false) :
      Numeral.decimal n ≠ w := by
    rintro rfl
    rw [Numeral.isDigit_of_mem_decimal hc] at hd
    cases hd
  have hnull : Numeral.decimal n ≠ ['n', 'u', 'l', 'l'] := hname List.mem_cons_self (by decide)
  have htrue : Numeral.decimal n ≠ ['t', 'r', 'u', 'e'] := hname List.mem_cons_self (by decide)
  have hfalse : Numeral.decimal n ≠ ['f', 'a', 'l', 's', 'e'] :=
    hname List.mem_cons_self (by decide)
  simp only [ofWord?, if_neg hnull, if_neg htrue, if_neg hfalse, Numeral.ofPlainDecimal?_decimal]

namespace Parser

variable {p q : Parser} {fs : List Frame} {t : Token} {ts : List Token} {j : Json} {w : List Char}
  {js rs : List Json} {k : List Piece} {ms rms : List (List Piece × Json)}

inductive Awaits : Parser → List Frame → Prop
  | value (fs : List Frame) : Awaits (value fs) fs
  | first (fs : List Frame) : Awaits (firstElement fs) (.array [] :: fs)

inductive AwaitsKey : Parser → List (List Piece × Json) → List Frame → Prop
  | key (ms : List (List Piece × Json)) (fs : List Frame) : AwaitsKey (key ms fs) ms fs
  | first (fs : List Frame) : AwaitsKey (firstKey fs) [] fs

theorem Awaits.step?_eq (h : p.Awaits fs) (hq : begin? fs t = some q) : p.step? t = some q := by
  cases h with
  | value => exact hq
  | first =>
    cases t with
    | closeBracket => cases hq
    | _ => exact hq

theorem AwaitsKey.step?_eq (h : p.AwaitsKey ms fs) :
    p.step? (.string k) = some (colon ms k fs) := by cases h <;> rfl

theorem exists_after_of_word (h : p.step? (.word w) = some q) : ∃ j fs, q = after j fs := by
  have hbegin {gs : List Frame} (h : begin? gs (.word w) = some q) : ∃ j fs, q = after j fs := by
    obtain ⟨j, -, rfl⟩ := Option.map_eq_some_iff.1 h
    exact ⟨j, gs, rfl⟩
  cases p with
  | value gs => exact hbegin h
  | firstElement gs => exact hbegin h
  | after i gs =>
    cases gs with
    | nil => cases h
    | cons g gs => cases g <;> cases h
  | _ => cases h

theorem step?_after_word : (after j fs).step? (.word w) = none := by
  cases fs with
  | nil => rfl
  | cons f fs => cases f <;> rfl

/-- A word is a whole value, and after a value there is none. -/
theorem isChain_of_foldlM (h : ts.foldlM step? p = some q) : ts.IsChain Apart := by
  induction ts generalizing p with
  | nil => exact .nil
  | cons t ts ih =>
    rw [List.foldlM_cons] at h
    obtain ⟨r, hr, h⟩ := Option.bind_eq_some_iff.1 h
    refine List.isChain_cons.2 ⟨?_, ih h⟩
    rintro u hu ⟨ht, hu'⟩
    obtain ⟨us, rfl⟩ : ∃ us, ts = u :: us := List.head?_eq_some_iff.1 hu
    cases t with
    | word v =>
      obtain ⟨j, fs, rfl⟩ := exists_after_of_word hr
      cases u with
      | word w =>
        rw [List.foldlM_cons, step?_after_word] at h
        cases h
      | _ => cases hu'
    | _ => cases ht

/-- The symbols, the last one first, that lead a parser from the start of a text to a place. -/
inductive Leads : List Token → Parser → Prop
  | start : Leads [] (value [])
  | step {ts : List Token} {p q : Parser} {t : Token} :
      Leads ts p → t.IsWritable → p.step? t = some q → Leads (t :: ts) q

theorem Leads.isWritable (h : Leads ts p) : ∀ t ∈ ts, t.IsWritable := by
  induction h with
  | start => exact fun t ht ↦ (List.not_mem_nil ht).elim
  | step _ hw _ ih => exact List.forall_mem_cons.2 ⟨hw, ih⟩

theorem Leads.foldlM_eq (h : Leads ts p) : ts.reverse.foldlM step? (value []) = some p := by
  induction h with
  | start => rfl
  | step _ _ hs ih =>
    rw [List.reverse_cons, List.foldlM_append, ih]
    simp [hs]

theorem Leads.word (h : Leads ts p) (ha : p.Awaits fs) (hw : (Token.word w).IsWritable)
    (hj : ofWord? w = some j) : Leads (.word w :: ts) (after j fs) := by
  have hb : begin? fs (.word w) = some (after j fs) := by rw [begin?, hj, Option.map_some]
  exact h.step hw (ha.step?_eq hb)

/-- What the symbols of a value do wherever a value may begin. -/
def Completes (j : Json) : Prop :=
  ∀ ⦃ts p fs⦄, Leads ts p → p.Awaits fs → Leads (tokensOnto ts j) (after j fs)

theorem Leads.elements (h : Leads ts p) (ha : p.Awaits (.array rs :: fs))
    (hj : Completes j) (hjs : ∀ i ∈ js, Completes i) :
    Leads (.closeBracket :: elementsOnto ts (j :: js))
      (after (.array (rs.reverse ++ j :: js)) fs) := by
  induction js generalizing j rs ts p with
  | nil =>
    have hlast := (hj h ha).step (t := .closeBracket) trivial rfl
    rwa [List.reverse_cons] at hlast
  | cons i js ih =>
    have hnext := (hj h ha).step (t := .comma) trivial rfl
    have hrest := ih hnext (.value _) (hjs i List.mem_cons_self)
      (fun e he ↦ hjs e (List.mem_cons_of_mem i he))
    rwa [List.reverse_cons, List.append_assoc] at hrest

theorem Leads.key (h : Leads ts p) (ha : p.AwaitsKey ms fs) (hk : ∀ x ∈ k, x.IsWritable) :
    Leads (.colon :: .string k :: ts) (value (.object ms k :: fs)) :=
  (h.step (t := .string k) hk ha.step?_eq).step trivial rfl

theorem Leads.members (h : Leads ts p) (ha : p.AwaitsKey rms fs)
    (hk : ∀ x ∈ k, x.IsWritable) (hj : Completes j)
    (hks : ∀ m ∈ ms, ∀ x ∈ m.1, x.IsWritable) (hms : ∀ m ∈ ms, Completes m.2) :
    Leads (.closeBrace :: membersOnto ts ((k, j) :: ms))
      (after (.object (rms.reverse ++ (k, j) :: ms)) fs) := by
  induction ms generalizing k j rms ts p with
  | nil =>
    have hlast := (hj (h.key ha hk) (.value _)).step (t := .closeBrace) trivial rfl
    rwa [List.reverse_cons] at hlast
  | cons m ms ih =>
    have hnext := (hj (h.key ha hk) (.value _)).step (t := .comma) trivial rfl
    have hrest := ih hnext (.key _ _) (hks m List.mem_cons_self) (hms m List.mem_cons_self)
      (fun e he ↦ hks e (List.mem_cons_of_mem m he)) (fun e he ↦ hms e (List.mem_cons_of_mem m he))
    rwa [List.reverse_cons, List.append_assoc] at hrest

theorem completes (hj : j.IsWritable) : Completes j := by
  -- What is inside is begun in another place than what is around it, so the place is left open.
  induction hj with
  | null => exact fun ts p fs h ha ↦ h.word ha (Token.isWritable_word rfl) rfl
  | bool b =>
    cases b with
    | true => exact fun ts p fs h ha ↦ h.word ha (Token.isWritable_word rfl) rfl
    | false => exact fun ts p fs h ha ↦ h.word ha (Token.isWritable_word rfl) rfl
  | natural n => exact fun ts p fs h ha ↦ h.word ha (isWritable_decimal n) (ofWord?_decimal n)
  | number hw hn => exact fun ts p fs h ha ↦ h.word ha hw hn
  | string hps => exact fun ts p fs h ha ↦ h.step hps (ha.step?_eq rfl)
  | @array js _ ih =>
    intro ts p fs h ha
    have hopen := h.step (t := .openBracket) trivial (ha.step?_eq rfl)
    cases js with
    | nil => exact hopen.step trivial rfl
    | cons j js =>
      exact hopen.elements (.first fs) (ih j List.mem_cons_self)
        (fun i hi ↦ ih i (List.mem_cons_of_mem j hi))
  | @object ms hks _ ih =>
    intro ts p fs h ha
    have hopen := h.step (t := .openBrace) trivial (ha.step?_eq rfl)
    cases ms with
    | nil => exact hopen.step trivial rfl
    | cons m ms =>
      exact hopen.members (.first fs) (hks m List.mem_cons_self) (ih m List.mem_cons_self)
        (fun e he ↦ hks e (List.mem_cons_of_mem m he))
        (fun e he ↦ ih e (List.mem_cons_of_mem m he))

end Parser

theorem leads_tokens {j : Json} (hj : j.IsWritable) :
    Parser.Leads j.tokens.reverse (.after j []) := by
  rw [tokens, List.reverse_reverse]
  exact Parser.completes hj .start (.value [])

theorem foldlM_tokens {j : Json} (hj : j.IsWritable) :
    j.tokens.foldlM Parser.step? (.value []) = some (.after j []) := by
  rw [← (leads_tokens hj).foldlM_eq, List.reverse_reverse]

theorem ofChars?_print {j : Json} (hj : j.IsWritable) :
    Token.ofChars? j.print.toList = some j.tokens := by
  rw [print, String.toList_ofList]
  exact Token.ofChars?_flatMap_chars
    (fun t ht ↦ (leads_tokens hj).isWritable t (List.mem_reverse.2 ht))
    (Parser.isChain_of_foldlM (foldlM_tokens hj))

theorem parse?_print {j : Json} (hj : j.IsWritable) : parse? j.print = some j := by
  rw [parse?, ofChars?_print hj]
  show ofTokens? j.tokens = some j
  rw [ofTokens?, foldlM_tokens hj]
  rfl

/-- A text that is its own symbols, one after the other, with no blanks between them. -/
def IsCompact (s : String) : Prop :=
  ∃ ts, Token.ofChars? s.toList = some ts ∧ s.toList = ts.flatMap Token.chars

theorem isCompact_print {j : Json} (hj : j.IsWritable) : IsCompact j.print :=
  ⟨j.tokens, ofChars?_print hj, String.toList_ofList⟩

end PathAttributes.Json
