import Mathlib.Data.List.Chain
import PathAttributes.Json.Token
import PathAttributes.Proofs.Text.Words

namespace PathAttributes

/-- A piece that is read as it was written: it neither ends the string nor begins an escape, and is
within the range of its form. -/
def Piece.IsWritable : Piece → Prop
  | plain c => c ≠ '"' ∧ c ≠ '\\'
  | escaped c => c ∈ letters.map (·.1)
  | unit n => n < 0x10000

namespace Token

def isWord : Token → Bool
  | word _ => true
  | _ => false

def IsWritable : Token → Prop
  | word w => w ≠ [] ∧ ∀ c ∈ w, isWordChar c = true
  | string ps => ∀ p ∈ ps, p.IsWritable
  | _ => True

theorem isWritable_word {c : Char} {w : List Char} (h : (c :: w).all isWordChar = true) :
    (word (c :: w)).IsWritable :=
  ⟨List.cons_ne_nil c w, List.all_eq_true.1 h⟩

/-- Two symbols that can be told apart with nothing between them. -/
def Apart (t u : Token) : Prop := ¬ (t.isWord ∧ u.isWord)

namespace Lexer

inductive Reads : Lexer → List Char → Lexer → Prop
  | nil (l : Lexer) : Reads l [] l
  | cons {l m n : Lexer} {c : Char} {cs : List Char} :
      l.step? c = some m → Reads m cs n → Reads l (c :: cs) n

variable {l m n : Lexer} {c : Char} {cs ds w : List Char} {ps : List Piece} {ts us : List Token}
  {t : Token}

theorem Reads.one (h : l.step? c = some m) : Reads l [c] m := .cons h (.nil m)

theorem Reads.trans (h : Reads l cs m) (h' : Reads m ds n) : Reads l (cs ++ ds) n := by
  induction h with
  | nil => exact h'
  | cons hs _ ih => exact .cons hs (ih h')

theorem Reads.foldlM_eq (h : Reads l cs m) : cs.foldlM step? l = some m := by
  induction h with
  | nil => rfl
  | cons hs _ ih =>
    rw [List.foldlM_cons, hs, ← ih]
    rfl

theorem reads_plain (h : (Piece.plain c).IsWritable) :
    Reads ⟨ts, .string ps⟩ [c] ⟨ts, .string (.plain c :: ps)⟩ :=
  .one ((if_neg h.1).trans (if_neg h.2))

theorem reads_escaped (h : (Piece.escaped c).IsWritable) :
    Reads ⟨ts, .string ps⟩ (Piece.escaped c).chars ⟨ts, .string (.escaped c :: ps)⟩ := by
  have hletters : ∀ m ∈ Piece.letters, (Piece.escaped m.1).chars = ['\\', m.2] ∧ m.2 ≠ 'u' ∧
      Piece.ofLetter? m.2 = some m.1 := by decide
  obtain ⟨m, hm, rfl⟩ := List.mem_map.1 h
  obtain ⟨hchars, hu, hletter⟩ := hletters m hm
  have hs : step? ⟨ts, .escape ps⟩ m.2 = some ⟨ts, .string (.escaped m.1 :: ps)⟩ := by
    simp only [step?, if_neg hu, hletter, Option.map_some]
  rw [hchars]
  exact .cons rfl (.one hs)

theorem reads_digit {digits k d : Nat} (hd : d < 16) (hdigits : digits ≠ 3) :
    Reads ⟨ts, .unit ps digits k⟩ [Numeral.digit d] ⟨ts, .unit ps (digits + 1) (16 * k + d)⟩ := by
  apply Reads.one
  simp only [step?, Numeral.hexValue?_digit hd, Option.map_some, if_neg hdigits]

theorem reads_lastDigit {k d : Nat} (hd : d < 16) :
    Reads ⟨ts, .unit ps 3 k⟩ [Numeral.digit d] ⟨ts, .string (.unit (16 * k + d) :: ps)⟩ := by
  apply Reads.one
  simp only [step?, Numeral.hexValue?_digit hd, Option.map_some, if_pos]

theorem reads_unit {k : Nat} (h : (Piece.unit k).IsWritable) :
    Reads ⟨ts, .string ps⟩ (Piece.unit k).chars ⟨ts, .string (.unit k :: ps)⟩ := by
  have hk : k < 0x10000 := h
  -- Two digits are those of an octet, so the number is put together from its octets' halves.
  have hhigh : (UInt8.ofNat (k / 256)).toNat = k / 256 :=
    UInt8.toNat_ofNat_of_lt' (show k / 256 < 256 by omega)
  have hlow : (UInt8.ofNat (k / 1)).toNat = k % 256 := by rw [Nat.div_one, UInt8.toNat_ofNat']
  have hchars : Piece.unitChars k = [Numeral.digit (k / 256 / 16), Numeral.digit (k / 256 % 16),
      Numeral.digit (k % 256 / 16), Numeral.digit (k % 256 % 16)] := by
    rw [← hhigh, ← hlow]
    rfl
  have hvalue : 16 * (16 * (16 * (16 * 0 + k / 256 / 16) + k / 256 % 16) + k % 256 / 16) +
      k % 256 % 16 = k := by omega
  have h₁ : Reads ⟨ts, .unit ps 0 0⟩ _ _ :=
    reads_digit (show k / 256 / 16 < 16 by omega) (by decide)
  have h₂ := h₁.trans (reads_digit (show k / 256 % 16 < 16 by omega) (by decide))
  have h₃ := h₂.trans (reads_digit (show k % 256 / 16 < 16 by omega) (by decide))
  have h₄ := h₃.trans (reads_lastDigit (show k % 256 % 16 < 16 by omega))
  rw [hvalue] at h₄
  rw [Piece.chars, hchars]
  exact .cons rfl (.cons rfl h₄)

theorem reads_piece {p : Piece} (h : p.IsWritable) :
    Reads ⟨ts, .string ps⟩ p.chars ⟨ts, .string (p :: ps)⟩ := by
  cases p with
  | plain c => exact reads_plain h
  | escaped c => exact reads_escaped h
  | unit k => exact reads_unit h

theorem reads_pieces {qs : List Piece} (h : ∀ q ∈ qs, q.IsWritable) :
    Reads ⟨ts, .string ps⟩ (qs.flatMap Piece.chars) ⟨ts, .string (qs.reverse ++ ps)⟩ := by
  induction qs generalizing ps with
  | nil => exact .nil _
  | cons q qs ih =>
    have hq : Reads ⟨ts, .string ps⟩ q.chars ⟨ts, .string (q :: ps)⟩ :=
      reads_piece (h q List.mem_cons_self)
    rw [List.flatMap_cons, List.reverse_cons, List.append_assoc]
    exact hq.trans (ih (fun r hr ↦ h r (List.mem_cons_of_mem q hr)))

theorem reads_string (h : (string ps).IsWritable) :
    Reads ⟨ts, .between⟩ (string ps).chars ⟨string ps :: ts, .between⟩ := by
  have hps : Reads ⟨ts, .string []⟩ (ps.flatMap Piece.chars) ⟨ts, .string (ps.reverse ++ [])⟩ :=
    reads_pieces h
  have hend : step? ⟨ts, .string (ps.reverse ++ [])⟩ '"' = some ⟨string ps :: ts, .between⟩ := by
    rw [List.append_nil]
    simp [step?]
  exact .cons rfl (hps.trans (.one hend))

theorem begin?_of_isWordChar (h : isWordChar c = true) :
    begin? ts c = some ⟨ts, .word [c]⟩ := by
  have hspace : isSpace c = false := by
    by_contra hs
    simp only [isSpace, Bool.not_eq_false, Bool.or_eq_true, beq_iff_eq] at hs
    rcases hs with ((rfl | rfl) | rfl) | rfl <;> cases h
  have hquote : c ≠ '"' := by
    rintro rfl
    cases h
  simp [begin?, hspace, hquote, h]

theorem reads_wordChars {v : List Char} (h : ∀ c ∈ w, isWordChar c = true) :
    Reads ⟨ts, .word v⟩ w ⟨ts, .word (w.reverse ++ v)⟩ := by
  induction w generalizing v with
  | nil => exact .nil _
  | cons c w ih =>
    have hc : step? ⟨ts, .word v⟩ c = some ⟨ts, .word (c :: v)⟩ :=
      if_pos (h c List.mem_cons_self)
    rw [List.reverse_cons, List.append_assoc]
    exact .cons hc (ih (fun d hd ↦ h d (List.mem_cons_of_mem c hd)))

theorem reads_word (h : (word w).IsWritable) :
    Reads ⟨ts, .between⟩ w ⟨ts, .word w.reverse⟩ := by
  obtain ⟨hne, hw⟩ := h
  cases w with
  | nil => exact absurd rfl hne
  | cons c w =>
    rw [List.reverse_cons]
    exact .cons (begin?_of_isWordChar (hw c List.mem_cons_self))
      (reads_wordChars (fun d hd ↦ hw d (List.mem_cons_of_mem c hd)))

/-- The end of a word is seen at the next symbol. -/
theorem step?_word (h : isWordChar c = false) :
    step? ⟨ts, .word w⟩ c = step? ⟨word w.reverse :: ts, .between⟩ c := by
  simp [step?, h]

theorem reads_of_not_isWord (ht : t.isWord = false) (h : t.IsWritable) :
    Reads ⟨ts, .between⟩ t.chars ⟨t :: ts, .between⟩ := by
  cases t with
  | word w => cases ht
  | string ps => exact reads_string h
  | _ => exact .one rfl

/-- The symbols that a lexer has read, the last one first. Of a word it does not know yet whether it
has ended. -/
inductive Has : Lexer → List Token → Prop
  | between (ts : List Token) : Has ⟨ts, .between⟩ ts
  | word (ts : List Token) (w : List Char) : Has ⟨ts, .word w⟩ (.word w.reverse :: ts)

theorem Has.tokens?_eq (h : l.Has ts) : l.tokens? = some ts.reverse := by cases h <;> rfl

theorem Reads.after_word (h : Reads ⟨word w.reverse :: ts, .between⟩ t.chars m)
    (ht : t.isWord = false) : Reads ⟨ts, .word w⟩ t.chars m := by
  obtain ⟨c, cs, hcs, hc⟩ : ∃ c cs, t.chars = c :: cs ∧ isWordChar c = false := by
    cases t with
    | word w => cases ht
    | _ => exact ⟨_, _, rfl, by decide⟩
  rw [hcs] at h ⊢
  cases h with
  | cons hs hr => exact .cons ((step?_word hc).trans hs) hr

theorem Has.reads (h : l.Has ts) (ht : t.IsWritable) (ha : ∀ u ∈ ts.head?, Apart u t) :
    ∃ m, Reads l t.chars m ∧ m.Has (t :: ts) := by
  cases hw : t.isWord with
  | false =>
    have hbetween : Reads ⟨ts, .between⟩ t.chars ⟨t :: ts, .between⟩ := reads_of_not_isWord hw ht
    refine ⟨⟨t :: ts, .between⟩, ?_, .between _⟩
    cases h with
    | between => exact hbetween
    | word us w => exact hbetween.after_word hw
  | true =>
    -- A word would be read on into another one.
    cases t with
    | word w =>
      cases h with
      | between =>
        exact ⟨⟨ts, .word w.reverse⟩, reads_word ht, by simpa using Has.word ts w.reverse⟩
      | word us v => exact absurd ⟨rfl, rfl⟩ (ha _ rfl)
    | _ => cases hw

theorem Has.reads_flatMap (h : l.Has us) (hw : ∀ t ∈ ts, t.IsWritable)
    (ha : (us.reverse ++ ts).IsChain Apart) :
    ∃ m, Reads l (ts.flatMap chars) m ∧ m.Has (ts.reverse ++ us) := by
  induction ts generalizing l us with
  | nil => exact ⟨l, .nil l, h⟩
  | cons t ts ih =>
    have hlast : ∀ u ∈ us.head?, Apart u t := by
      intro u hu
      exact (List.isChain_append.1 ha).2.2 u (by rwa [List.getLast?_reverse]) t rfl
    obtain ⟨m, hm, hm'⟩ := h.reads (hw t List.mem_cons_self) hlast
    have hrest : ((t :: us).reverse ++ ts).IsChain Apart := by
      rwa [List.reverse_cons, List.append_assoc]
    obtain ⟨n, hn, hn'⟩ := ih hm' (fun u hu ↦ hw u (List.mem_cons_of_mem t hu)) hrest
    refine ⟨n, hm.trans hn, ?_⟩
    rwa [List.reverse_cons, List.append_assoc]

end Lexer

/-- Symbols are read back from their text if no two words are next to each other. -/
theorem ofChars?_flatMap_chars {ts : List Token} (hw : ∀ t ∈ ts, t.IsWritable)
    (ha : ts.IsChain Apart) : ofChars? (ts.flatMap chars) = some ts := by
  obtain ⟨l, hl, hts⟩ := (Lexer.Has.between []).reads_flatMap hw ha
  rw [ofChars?, hl.foldlM_eq]
  show l.tokens? = some ts
  rw [hts.tokens?_eq, List.append_nil, List.reverse_reverse]

end Token

end PathAttributes
