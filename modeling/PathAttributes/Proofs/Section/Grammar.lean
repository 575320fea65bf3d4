import PathAttributes.AttrList.Decode
import PathAttributes.Proofs.Section.Value
import PathAttributes.Proofs.Tlv.Sequence

namespace PathAttributes

namespace Tlv

/-- What a complete attribute must satisfy whatever stands before it. -/
structure Conforms (t : Tlv) : Prop where
  length : ∀ type : AttrType, t.code = Numbered.code type → type.HasLength t.value
  category : ∀ type : AttrType, t.code = Numbered.code type →
    t.flags &&& 0xC0 = type.descriptor.flags.bits
  value : ∀ type : AttrType, t.code = Numbered.code type → type.Allows t.value
  optional : AttrType.IsUnknown t.code → t.flags &&& 0x80 ≠ 0

/-- A preference is not kept if it comes from another AS. -/
def isKept (peer : PeerType) (t : Tlv) : Bool :=
  peer = .internal || t.code ≠ Numbered.code AttrType.localPref

def keptCodes (peer : PeerType) (ts : List Tlv) : List UInt8 :=
  (ts.filter (isKept peer)).map code

/-- The flags without the bits that have no meaning; an unknown attribute that will be passed on is
marked as partial. -/
def keptFlags (t : Tlv) : UInt8 :=
  if AttrType.IsUnknown t.code ∧ t.flags &&& 0x40 ≠ 0 then t.flags &&& 0xF0 ||| 0x20
  else t.flags &&& 0xF0

def keptValue (t : Tlv) : Value :=
  match (Numbered.ofCode? t.code : Option AttrType) with
  | some type => type.sentValue t.value
  | none => .raw t.value

def attr (t : Tlv) : Attr := ⟨.bgp t.code, ⟨t.keptFlags⟩, t.keptValue⟩

theorem attr_of_known {t : Tlv} {type : AttrType} (h : t.code = Numbered.code type) :
    t.attr = ⟨type.id, Flags.ofOctet t.flags, type.sentValue t.value⟩ := by
  have hu : ¬AttrType.IsUnknown t.code := h ▸ AttrType.not_isUnknown_code type
  simp only [attr, keptFlags, keptValue, hu, false_and, if_false]
  rw [h, Numbered.ofCode?_code]
  rfl

theorem attr_of_unknown {t : Tlv} (h : AttrType.IsUnknown t.code) :
    t.attr = ⟨.bgp t.code, ⟨t.keptFlags⟩, .raw t.value⟩ := by
  rw [attr, keptValue, (AttrType.ofCode?_eq_none_iff t.code).2 h]

theorem keptFlags_eq_self {t : Tlv} (hl : t.flags &&& 0x0F = 0)
    (hp : AttrType.IsUnknown t.code → t.flags &&& 0x40 ≠ 0 → t.flags &&& 0x20 ≠ 0) :
    t.keptFlags = t.flags := by
  have hlow : ∀ b : UInt8, b &&& 0x0F = 0 → b &&& 0xF0 = b := forall_octet (by decide +kernel)
  have hpart : ∀ b : UInt8, b &&& 0x20 ≠ 0 → b ||| 0x20 = b := forall_octet (by decide +kernel)
  rw [keptFlags, hlow t.flags hl]
  split
  · rename_i h
    exact hpart t.flags (hp h.1 h.2)
  · rfl

theorem mem_keptCodes {peer : PeerType} {ts : List Tlv} {c : UInt8} :
    c ∈ keptCodes peer ts ↔ ∃ t ∈ ts, t.isKept peer = true ∧ t.code = c := by
  simp only [keptCodes, List.mem_map, List.mem_filter, and_assoc]

theorem keptCodes_append (peer : PeerType) (ts us : List Tlv) :
    keptCodes peer (ts ++ us) = keptCodes peer ts ++ keptCodes peer us := by
  rw [keptCodes, List.filter_append, List.map_append]
  rfl

theorem filter_isKept_singleton (peer : PeerType) (t : Tlv) :
    [t].filter (isKept peer) = if t.isKept peer then [t] else [] := by
  rw [List.filter_cons, List.filter_nil]

theorem keptCodes_singleton (peer : PeerType) (t : Tlv) :
    keptCodes peer [t] = if t.isKept peer then [t.code] else [] := by
  rw [keptCodes, filter_isKept_singleton]
  split <;> rfl

/-- What is not kept counts for nothing when the next attributes are judged. -/
theorem not_mem_keptCodes {peer : PeerType} {t : Tlv} (h : t.isKept peer = false)
    (ts : List Tlv) : t.code ∉ keptCodes peer ts := by
  intro hm
  obtain ⟨u, -, hu, hc⟩ := mem_keptCodes.1 hm
  have he : u.isKept peer = t.isKept peer := by rw [isKept, isKept, hc]
  rw [he, h] at hu
  cases hu

theorem mem_keptCodes_iff_of_mandatory {peer : PeerType} {ts : List Tlv} {type : AttrType}
    (h : type ∈ [AttrType.origin, .asPath, .nextHop]) :
    Numbered.code type ∈ keptCodes peer ts ↔ Numbered.code type ∈ ts.map code := by
  have hne : Numbered.code type ≠ Numbered.code AttrType.localPref := by
    revert h
    cases type <;> decide
  rw [mem_keptCodes, List.mem_map]
  constructor
  · rintro ⟨t, ht, -, hc⟩
    exact ⟨t, ht, hc⟩
  · rintro ⟨t, ht, hc⟩
    exact ⟨t, ht, by simp [isKept, hc, hne], hc⟩

end Tlv

open Tlv

structure Passes (peer : PeerType) (before : List Tlv) (t : Tlv) : Prop where
  fresh : t.code ∉ keptCodes peer before
  conforms : t.Conforms

inductive Accepted (peer : PeerType) : List Tlv → Prop
  | nil : Accepted peer []
  | snoc {ts : List Tlv} {t : Tlv} :
      Accepted peer ts → t.Fits → Passes peer ts t → Accepted peer (ts ++ [t])

structure Admissible (peer : PeerType) (ts : List Tlv) : Prop where
  complete : ∀ t ∈ ts, t.Fits
  conforms : ∀ t ∈ ts, t.Conforms
  distinct : (keptCodes peer ts).Nodup
  mandatory : ∀ type ∈ [AttrType.origin, .asPath, .nextHop],
    Numbered.code type ∈ keptCodes peer ts

def defaultPreference (n : UInt32) : Attr := ⟨.bgp 5, ⟨0x80⟩, .int n⟩

def described (context : Context) (ts : List Tlv) : List Attr :=
  (ts.filter (isKept context.peerType)).map attr ++
    if Numbered.code AttrType.localPref ∈ keptCodes context.peerType ts then []
    else [defaultPreference context.defaultLocalPref]

theorem passes_of_distinct {peer : PeerType} {ts us : List Tlv} {t : Tlv} (hc : t.Conforms)
    (hd : (keptCodes peer (ts ++ t :: us)).Nodup) : Passes peer ts t := by
  refine ⟨?_, hc⟩
  cases hk : t.isKept peer with
  | false => exact not_mem_keptCodes hk ts
  | true =>
    rw [List.append_cons, keptCodes_append, keptCodes_append, keptCodes_singleton, if_pos hk] at hd
    intro hm
    have h := (List.nodup_append.1 (List.nodup_append.1 hd).1).2.2
    exact h _ hm _ List.mem_cons_self rfl

namespace Accepted

variable {peer : PeerType} {ts us : List Tlv}

theorem fits (h : Accepted peer ts) : ∀ t ∈ ts, t.Fits := by
  induction h with
  | nil => exact fun t hm ↦ (List.not_mem_nil hm).elim
  | snoc h ht hp ih =>
    intro u hu
    rcases List.mem_append.1 hu with hu | hu
    · exact ih u hu
    · rwa [List.mem_singleton.1 hu]

theorem conforms (h : Accepted peer ts) : ∀ t ∈ ts, t.Conforms := by
  induction h with
  | nil => exact fun t hm ↦ (List.not_mem_nil hm).elim
  | snoc h ht hp ih =>
    intro u hu
    rcases List.mem_append.1 hu with hu | hu
    · exact ih u hu
    · rw [List.mem_singleton.1 hu]
      exact hp.conforms

theorem distinct (h : Accepted peer ts) : (keptCodes peer ts).Nodup := by
  induction h with
  | nil => exact List.nodup_nil
  | snoc h ht hp ih =>
    rename_i ts t
    rw [keptCodes_append, keptCodes_singleton]
    refine List.nodup_append.2 ⟨ih, ?_, ?_⟩
    · split <;> simp
    · intro c hc d hd
      rintro rfl
      split at hd
      · rw [List.mem_singleton.1 hd] at hc
        exact hp.fresh hc
      · cases hd

theorem append (h : Accepted peer ts) (hfits : ∀ t ∈ us, t.Fits) (hconf : ∀ t ∈ us, t.Conforms)
    (hd : (keptCodes peer (ts ++ us)).Nodup) : Accepted peer (ts ++ us) := by
  induction us generalizing ts with
  | nil => rwa [List.append_nil]
  | cons t us ih =>
    have ht : Passes peer ts t := passes_of_distinct (hconf t List.mem_cons_self) hd
    have hs : Accepted peer (ts ++ [t]) := .snoc h (hfits t List.mem_cons_self) ht
    rw [List.append_cons] at hd ⊢
    exact ih hs (fun u hu ↦ hfits u (List.mem_cons_of_mem t hu))
      (fun u hu ↦ hconf u (List.mem_cons_of_mem t hu)) hd

end Accepted

theorem accepted_iff {peer : PeerType} {ts : List Tlv} :
    Accepted peer ts ↔
      (∀ t ∈ ts, t.Fits) ∧ (∀ t ∈ ts, t.Conforms) ∧ (keptCodes peer ts).Nodup :=
  ⟨fun h ↦ ⟨h.fits, h.conforms, h.distinct⟩,
    fun ⟨hfits, hconf, hd⟩ ↦ Accepted.nil.append hfits hconf hd⟩

theorem Accepted.passes {peer : PeerType} {ts us : List Tlv} {t : Tlv}
    (h : Accepted peer (ts ++ t :: us)) : Passes peer ts t :=
  passes_of_distinct (h.conforms t (List.mem_append_right ts List.mem_cons_self)) h.distinct

end PathAttributes
