import PathAttributes.Notification
import PathAttributes.Proofs.Section.Rejection

namespace PathAttributes.Notification

variable {m : Notification} {bs : Octets}

def header (length : Nat) : Octets :=
  List.replicate 16 0xFF ++ Octets.ofNat 2 length ++ [Numbered.code MessageType.notification]

def body (m : Notification) : Octets := m.errorCode :: m.errorSubcode :: m.data

def cut (m : Notification) : Notification := { m with data := m.data.take maxDataLength }

theorem length_header (length : Nat) : (header length).length = 19 := by
  rw [header, List.length_append, List.length_append, List.length_replicate, Octets.length_ofNat]
  rfl

theorem toNat_header {length : Nat} (h : length < 65536) (bs : Octets) :
    Octets.toNat (((header length ++ bs).drop 16).take 2) = length := by
  rw [header, List.append_assoc, List.append_assoc, List.drop_left' List.length_replicate,
    List.take_left' (Octets.length_ofNat 2 length), Octets.toNat_ofNat]
  exact Nat.mod_eq_of_lt h

theorem decode_eq_some_iff : decode bs = some m ↔ bs = m.body := by
  constructor
  · intro h
    match bs, h with
    | code :: subcode :: data, h =>
      cases h
      rfl
  · rintro rfl
    rfl

theorem decode_eq_none_iff : decode bs = none ↔ bs.length < 2 := by
  match bs with
  | [] | [_] => simp [decode]
  | _ :: _ :: _ => simp [decode]

theorem length_body (m : Notification) : m.body.length = m.data.length + 2 := rfl

theorem cut_eq_self (h : m.data.length ≤ maxDataLength) : m.cut = m := by
  rw [cut, List.take_of_length_le h]

theorem length_cut (m : Notification) : m.cut.data.length = min m.data.length maxDataLength := by
  rw [cut, List.length_take, Nat.min_comm]

theorem encode_eq (m : Notification) :
    m.encode = header (19 + m.cut.body.length) ++ m.cut.body := by
  have hlength : minLength + m.cut.data.length = 19 + m.cut.body.length := by
    rw [length_body, minLength]
    omega
  rw [header, ← hlength, List.append_assoc, List.singleton_append]
  rfl

theorem length_encode (m : Notification) : m.encode.length = 19 + m.cut.body.length := by
  rw [encode_eq, List.length_append, length_header]

theorem length_encode_le (m : Notification) : m.encode.length ≤ maxLength := by
  have hle : m.cut.data.length ≤ maxDataLength := by
    rw [length_cut]
    exact Nat.min_le_right _ _
  rw [length_encode, length_body]
  rw [maxDataLength, minLength] at hle
  rw [maxLength] at hle ⊢
  omega

theorem toNat_length_encode (m : Notification) :
    Octets.toNat ((m.encode.drop 16).take 2) = m.encode.length := by
  -- The length does not wrap, for what is sent is at most 4096 octets long.
  have hlt : 19 + m.cut.body.length < 65536 := by
    rw [← length_encode]
    exact Nat.lt_of_le_of_lt m.length_encode_le (by decide)
  rw [length_encode, encode_eq, toNat_header hlt]

theorem decode_drop_encode (m : Notification) : decode (m.encode.drop 19) = some m.cut := by
  rw [encode_eq, List.drop_left' (length_header _)]
  exact decode_eq_some_iff.2 rfl

theorem encode_of_decode (h : decode bs = some m) (hle : bs.length ≤ 4077) :
    m.encode = header (19 + bs.length) ++ bs := by
  obtain rfl := decode_eq_some_iff.1 h
  rw [length_body] at hle
  rw [encode_eq, cut_eq_self (Nat.le_of_add_le_add_right hle)]

theorem cut_ofUpdateError (e : UpdateError) : (ofUpdateError e).cut = ofUpdateError e :=
  cut_eq_self (List.length_take_le _ _)

theorem take_maxDataLength (data : Octets) :
    data.take maxDataLength = data.take (min 4075 data.length) := by
  rw [← List.take_eq_take_min]
  rfl

theorem sent_and_read :
    (∀ m : Notification, m.encode.length = 21 + min m.data.length 4075 ∧
      m.encode.length ≤ 4096 ∧ Octets.toNat ((m.encode.drop 16).take 2) = m.encode.length ∧
      decode (m.encode.drop 19) = some { m with data := m.data.take 4075 }) ∧
    (∀ bs : Octets, 2 ≤ bs.length → bs.length ≤ 4077 → ∃ m, decode bs = some m ∧
      m.encode = List.replicate 16 0xFF ++ Octets.ofNat 2 (19 + bs.length) ++ [3] ++ bs) ∧
    (∀ bs : Octets, bs.length < 2 → decode bs = none) ∧
    (∀ context bs e, AttrList.decode context bs = .error e →
      decode ((ofUpdateError e).encode.drop 19) = some (ofUpdateError e) ∧
      (ofUpdateError e).errorCode = 3 ∧ (ofUpdateError e).errorSubcode = Numbered.code e.subcode ∧
      (ofUpdateError e).data = e.data.take (min 4075 e.data.length)) := by
  refine ⟨fun m ↦ ⟨?_, m.length_encode_le, m.toNat_length_encode, m.decode_drop_encode⟩, ?_, ?_, ?_⟩
  · rw [length_encode, length_body, length_cut, maxDataLength, maxLength, minLength]
    omega
  · intro bs hlo hhi
    cases h : decode bs with
    | none => exact absurd (decode_eq_none_iff.1 h) (Nat.not_lt.2 hlo)
    | some m => exact ⟨m, rfl, encode_of_decode h hhi⟩
  · exact fun bs ↦ decode_eq_none_iff.2
  · intro context bs e _
    refine ⟨?_, rfl, rfl, take_maxDataLength e.data⟩
    rw [decode_drop_encode, cut_ofUpdateError]

def lengthy : Tlv := ⟨0x50, 200, List.replicate 5000 0⟩

theorem sent_and_read_lengthy :
    AttrList.decode ⟨.external, 100⟩ lengthy.octets =
      .error (.unrecognizedWellKnown lengthy.octets) ∧
    (ofUpdateError (.unrecognizedWellKnown lengthy.octets)).encode.length = 4096 ∧
    decode ((ofUpdateError (.unrecognizedWellKnown lengthy.octets)).encode.drop 19) =
      some ⟨3, 2, lengthy.octets.take 4075⟩ := by
  have hlength : lengthy.octets.length = 5004 := by
    rw [lengthy, Tlv.octets, List.length_cons, List.length_cons, List.length_append,
      Octets.length_ofNat, List.length_replicate]
    decide
  have hfits : lengthy.Fits := by
    rw [Tlv.Fits, lengthy, List.length_replicate]
    decide
  have hfails : Fails .external [] lengthy (.unrecognizedWellKnown lengthy.octets) :=
    .unrecognized List.not_mem_nil (by decide) (by decide)
  have hrefused : AttrList.decode ⟨.external, 100⟩ lengthy.octets =
      .error (.unrecognizedWellKnown lengthy.octets) := by
    have hoffence : Offence .external [] (lengthy.octets ++ []) _ := .failing hfits hfails
    rw [List.append_nil] at hoffence
    exact AttrList.decode_of_offence .nil hoffence
  obtain ⟨hsent, -, -, htold⟩ := sent_and_read
  obtain ⟨hread, -, -, hdata⟩ := htold _ _ _ hrefused
  refine ⟨hrefused, ?_, hread⟩
  rw [(hsent _).1, hdata, List.length_take, UpdateError.data, hlength]
  decide

end PathAttributes.Notification
