import LoopScript.Session
import Mathlib.Data.List.Basic

/-! The lines that a session reads from its input. Every list of lines without newlines can be typed: in
UTF-8 the byte that ends a line belongs to no character but the newline, so that lines with their ends are
cut where they end, and decoded as what they are. -/

namespace LoopScript

namespace Session

/-- The lines that are read from some bytes; none if one of them is not UTF-8. -/
def typedLines : List UInt8 → Option (List String)
  | [] => some []
  | byte :: rest =>
      match NumberInput.decode? (NumberInput.cutLine (byte :: rest)).1 with
      | none => none
      | some text => (typedLines (NumberInput.cutLine (byte :: rest)).2).map (dropLineEnd text :: ·)
termination_by bytes => bytes.length
decreasing_by exact NumberInput.cutLine_length_lt byte rest

end Session

namespace NumberInput

def encode (text : String) : List UInt8 := text.toList.flatMap String.utf8EncodeChar

theorem encode_append (first second : String) : encode (first ++ second) = encode first ++ encode second := by
  rw [encode, String.toList_append, List.flatMap_append]
  rfl

theorem decode?_encode (text : String) : decode? (encode text) = some text := by
  have hbytes : (⟨(encode text).toArray⟩ : ByteArray) = text.toByteArray := by
    rw [← String.utf8Encode_toList]
    apply ByteArray.ext
    simp [encode, List.utf8Encode]
  rw [decode?, hbytes]
  simp [String.fromUTF8?, text.isValidUTF8, String.fromUTF8]

/-- A character that takes more than one byte has no byte of a shorter one. -/
theorem le_of_mem_utf8EncodeChar {c : Char} (hc : 127 < c.val.toNat) {byte : UInt8}
    (h : byte ∈ String.utf8EncodeChar c) : 128 ≤ byte.toNat := by
  have hlarge : ∀ n, byte = UInt8.ofNat n → 128 ≤ n % 256 → 128 ≤ byte.toNat := by
    rintro n rfl hn
    simpa using hn
  unfold String.utf8EncodeChar at h
  dsimp only at h
  rw [if_neg (by omega)] at h
  split at h
  · simp only [List.mem_cons, List.not_mem_nil, or_false] at h
    rcases h with h | h <;> exact hlarge _ h (by omega)
  · split at h
    · simp only [List.mem_cons, List.not_mem_nil, or_false] at h
      rcases h with h | h | h <;> exact hlarge _ h (by omega)
    · simp only [List.mem_cons, List.not_mem_nil, or_false] at h
      rcases h with h | h | h | h <;> exact hlarge _ h (by omega)

theorem eq_newline_of_mem {c : Char} (h : newlineByte ∈ String.utf8EncodeChar c) : c = '\n' := by
  have hsmall : c.val.toNat ≤ 127 := by
    by_contra hc
    have hle := le_of_mem_utf8EncodeChar (Nat.lt_of_not_le hc) h
    simp [newlineByte] at hle
  unfold String.utf8EncodeChar at h
  dsimp only at h
  rw [if_pos hsmall, List.mem_singleton] at h
  have hbyte : newlineByte.toNat = c.val.toNat % 256 := (congrArg UInt8.toNat h).trans UInt8.toNat_ofNat
  have hcode : newlineByte.toNat = '\n'.val.toNat := rfl
  apply Char.ext
  apply UInt32.toNat_inj.mp
  omega

theorem newlineByte_not_mem_encode {text : String} (h : '\n' ∉ text.toList) : newlineByte ∉ encode text := by
  intro hmem
  obtain ⟨c, hc, hbyte⟩ := List.mem_flatMap.mp hmem
  exact h (eq_newline_of_mem hbyte ▸ hc)

theorem cutLine_of_not_mem {bytes : List UInt8} (h : newlineByte ∉ bytes) (rest : List UInt8) :
    cutLine (bytes ++ newlineByte :: rest) = (bytes ++ [newlineByte], rest) := by
  induction bytes with
  | nil =>
      rw [List.nil_append, cutLine, if_pos rfl]
      rfl
  | cons byte bytes ih =>
      simp only [List.mem_cons, not_or] at h
      rw [List.cons_append, cutLine, if_neg (Ne.symm h.1), ih h.2]
      rfl

end NumberInput

namespace Session

open NumberInput (encode newlineByte)

/-- Some lines as bytes. Each has a carriage return and a newline at its end: a line that itself ends with
a carriage return could not be told from its end otherwise. -/
def typedBytes (lines : List String) : List UInt8 := lines.flatMap fun line => encode (line ++ "\r\n")

theorem dropLineEnd_append (line : String) : dropLineEnd (line ++ "\r\n") = line := by
  have hend : (line ++ "\r\n").toList.reverse = '\n' :: '\r' :: line.toList.reverse := by
    rw [String.toList_append, List.reverse_append]
    rfl
  rw [dropLineEnd, hend]
  simp [Text.dropReturn]

/-- All lines without newlines can be typed. -/
theorem typedLines_typedBytes {lines : List String} (h : ∀ line ∈ lines, '\n' ∉ line.toList) :
    typedLines (typedBytes lines) = some lines := by
  induction lines with
  | nil => rw [typedBytes, List.flatMap_nil, typedLines]
  | cons line lines ih =>
      obtain ⟨hline, hlines⟩ := List.forall_mem_cons.mp h
      have hreturn : '\n' ∉ (line ++ "\r").toList := by
        rw [String.toList_append]
        simpa using hline
      have hwhole : line ++ "\r\n" = line ++ "\r" ++ "\n" := by
        rw [String.append_assoc]
        rfl
      have hnewline : encode "\n" = [newlineByte] := by decide
      have hbytes : typedBytes (line :: lines) =
          encode (line ++ "\r") ++ newlineByte :: typedBytes lines := by
        rw [typedBytes, List.flatMap_cons, hwhole, NumberInput.encode_append, hnewline,
          List.append_assoc]
        rfl
      have hcut := NumberInput.cutLine_of_not_mem (NumberInput.newlineByte_not_mem_encode hreturn)
        (typedBytes lines)
      have hdecode : NumberInput.decode? (encode (line ++ "\r") ++ [newlineByte]) =
          some (line ++ "\r\n") := by
        rw [← hnewline, ← NumberInput.encode_append, ← hwhole]
        exact NumberInput.decode?_encode _
      rw [hbytes]
      cases hcons : encode (line ++ "\r") ++ newlineByte :: typedBytes lines with
      | nil => simp at hcons
      | cons byte rest =>
          rw [hcons] at hcut
          rw [typedLines, hcut]
          simp only [hdecode, ih hlines, Option.map_some, dropLineEnd_append]

end Session
end LoopScript
