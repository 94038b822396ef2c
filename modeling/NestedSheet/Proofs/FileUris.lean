import NestedSheet.Location
import NestedSheet.Proofs.Printing

/-!
# File URIs

In a URI every byte that does not stand for itself is a percent sign with two digits.  A percent
sign does not stand for itself, so nothing else looks like one of these triplets, and the bytes
can be read back from left to right (`percentDecoded_percentQuoted`).  They are the UTF-8 bytes
of the text, which no other text has.

So the URI of a file name tells its absolute path, and nothing else about the name.

Main results:

* `Text.isUri_percentQuoted` — what stands in a quoted text.
* `Text.ofUtf8?_percentQuoted` — it is read back.
* `Location.fileUri_decodes` — the URI of a file.
-/

namespace NestedSheet

open Component

namespace Text

/-! ## Quoted texts -/

/-- ASCII letters and digits, the marks and reserved characters that stand for themselves in a
path, and percent signs with two hexadecimal digits. -/
inductive IsUri : Text → Prop
  | nil : IsUri []
  | alphanum {c : Char} {t : Text} : c.isAlphanum = true → IsUri t → IsUri (c :: t)
  | mark {c : Char} {t : Text} : c ∈ "_.-~".toList → IsUri t → IsUri (c :: t)
  | reserved {c : Char} {t : Text} : c ∈ "/;?:@&=+$,!*'()[]".toList → IsUri t → IsUri (c :: t)
  | triplet {a b : Char} {t : Text} : isHex a = true → isHex b = true → IsUri t →
    IsUri ('%' :: a :: b :: t)

/-- The bytes that a text stands for: one for a percent sign with two hexadecimal digits, and
for every other character its own. -/
def percentDecoded : Text → List UInt8
  | [] => []
  | '%' :: a :: b :: t =>
    if isHex a && isHex b then UInt8.ofNat (hexValue [a, b]) :: percentDecoded t
    else String.utf8EncodeChar '%' ++ percentDecoded (a :: b :: t)
  | c :: t => String.utf8EncodeChar c ++ percentDecoded t

/-- The text that has these UTF-8 bytes, if there is one. -/
def ofUtf8? (bytes : List UInt8) : Option Text :=
  bytes.toByteArray.utf8Decode?.map Array.toList

/-! ## Bytes -/

/-- The two digits of a byte. -/
theorem hexUpper_byte (b : UInt8) : isHex (hexUpper (b.toNat / 16)) = true
    ∧ isHex (hexUpper (b.toNat % 16)) = true
    ∧ UInt8.ofNat (hexValue [hexUpper (b.toNat / 16), hexUpper (b.toNat % 16)]) = b := by
  have hbound := b.toNat_lt
  obtain ⟨hhigh, hhighvalue⟩ := isHex_digitChar (b.toNat / 16) (by omega)
  obtain ⟨hlow, hlowvalue⟩ := isHex_digitChar (b.toNat % 16) (by omega)
  refine ⟨hhigh, hlow, ?_⟩
  have hvalue : hexValue [hexUpper (b.toNat / 16), hexUpper (b.toNat % 16)] = b.toNat := by
    show 16 * (16 * 0 + hexDigit _) + hexDigit _ = b.toNat
    rw [hexUpper, hexUpper, hhighvalue, hlowvalue]
    omega
  rw [hvalue, UInt8.ofNat_toNat]

theorem isUri_kept {c : Char} (hc : keptInUri c = true) {t : Text} (h : IsUri t) :
    IsUri (c :: t) := by
  have hmarks : uriMarks = "_.-~".toList ++ "/;?:@&=+$,!*'()[]".toList := by decide
  rw [keptInUri, Bool.or_eq_true, List.contains_iff_mem, hmarks, List.mem_append] at hc
  rcases hc with hc | hc | hc
  · exact .alphanum hc h
  · exact .mark hc h
  · exact .reserved hc h

theorem isUri_percentByte (b : UInt8) {t : Text} (h : IsUri t) : IsUri (percentByte b ++ t) :=
  .triplet (hexUpper_byte b).1 (hexUpper_byte b).2.1 h

theorem percentDecoded_percentByte (b : UInt8) (t : Text) :
    percentDecoded (percentByte b ++ t) = b :: percentDecoded t := by
  obtain ⟨hhigh, hlow, hvalue⟩ := hexUpper_byte b
  -- the digits are not open to evaluation, but the shape of a triplet is
  show percentDecoded ('%' :: _ :: _ :: t) = b :: percentDecoded t
  rw [percentDecoded, hhigh, hlow, hvalue]
  rfl

/-! ## Reading back -/

theorem percentDecoded_kept {c : Char} (h : keptInUri c = true) (t : Text) :
    percentDecoded (c :: t) = String.utf8EncodeChar c ++ percentDecoded t := by
  rw [percentDecoded]
  -- a percent sign would have been quoted
  rintro a b rest rfl
  cases h

theorem percentDecoded_bytes (bytes : List UInt8) (t : Text) :
    percentDecoded (bytes.flatMap percentByte ++ t) = bytes ++ percentDecoded t := by
  induction bytes with
  | nil => rfl
  | cons b bytes ih =>
    rw [List.flatMap_cons, List.append_assoc, percentDecoded_percentByte, ih, List.cons_append]

/-- A quoted text stands for the bytes of the text. -/
theorem percentDecoded_percentQuoted (t : Text) :
    percentDecoded (percentQuoted t) = t.flatMap String.utf8EncodeChar := by
  induction t with
  | nil => rfl
  | cons c cs ih =>
    rw [percentQuoted, List.flatMap_cons, List.flatMap_cons, ← percentQuoted]
    split
    · next hkept => rw [List.singleton_append, percentDecoded_kept hkept, ih]
    · rw [percentDecoded_bytes, ih]

/-- A quoted text is made of characters that stand for themselves and of triplets. -/
theorem isUri_percentQuoted (t : Text) : IsUri (percentQuoted t) := by
  have hbytes : ∀ (bytes : List UInt8) {u : Text}, IsUri u →
      IsUri (bytes.flatMap percentByte ++ u) := by
    intro bytes u hu
    induction bytes with
    | nil => exact hu
    | cons b bytes ih =>
      rw [List.flatMap_cons, List.append_assoc]
      exact isUri_percentByte b ih
  induction t with
  | nil => exact .nil
  | cons c cs ih =>
    rw [percentQuoted, List.flatMap_cons, ← percentQuoted]
    split
    · next hkept => exact isUri_kept hkept ih
    · exact hbytes _ ih

/-- **A quoted text is read back.** -/
theorem ofUtf8?_percentQuoted (t : Text) : ofUtf8? (percentDecoded (percentQuoted t)) = some t := by
  have hread : (t.flatMap String.utf8EncodeChar).toByteArray.utf8Decode? = some t.toArray :=
    List.utf8Decode?_utf8Encode
  rw [percentDecoded_percentQuoted, ofUtf8?, hread]
  rfl

/-- A percent sign without two digits stands for itself. -/
example : percentDecoded "ä%C3%a4%4".toList = [0xC3, 0xA4, 0xC3, 0xA4, 0x25, 0x34]
    ∧ ofUtf8? (percentDecoded "ä%C3%a4%4".toList) = some "ää%4".toList
    ∧ ofUtf8? (percentDecoded "%C3%4".toList) = none := by
  decide +kernel

theorem percentQuoted_inj {t u : Text} : percentQuoted t = percentQuoted u ↔ t = u := by
  constructor
  · intro h
    have hread := ofUtf8?_percentQuoted t
    rw [h, ofUtf8?_percentQuoted] at hread
    exact (Option.some.inj hread).symm
  · exact congrArg percentQuoted

end Text

/-! ## The file of an origin -/

namespace Location

/-- The file that an origin names, if it is known. -/
def file? (origin : Origin) : Option Text :=
  origin.filename.filter fun filename => !filename.isEmpty

theorem fileUri_of_file {origin : Origin} {filename : Text} (h : file? origin = some filename)
    (directory : Text) : fileUri directory origin
      = "file://".toList ++ Text.percentQuoted (Path.absolute directory filename) := by
  obtain ⟨hname, hfilled⟩ := Option.filter_eq_some_iff.1 h
  obtain ⟨c, cs, rfl⟩ : ∃ c cs, filename = c :: cs :=
    List.exists_cons_of_ne_nil (by simpa using hfilled)
  rw [fileUri, hname]

theorem fileUri_of_none {origin : Origin} (h : file? origin = none) (directory : Text) :
    fileUri directory origin = [] := by
  unfold fileUri
  split
  · next c cs hname =>
    rw [file?, hname] at h
    cases h
  · rfl

/-- **The URI of a file can be decoded.**  For a file name that is not empty it is `file://` and
characters that stand for themselves or triplets, which stand for the UTF-8 bytes of the absolute
path of the file.  So two origins have the same URI just when the files of both are unknown, or
both are known and have the same absolute path. -/
theorem fileUri_decodes (directory : Text) :
    (∀ (origin : Origin) (filename : Text), origin.filename = some filename → filename ≠ [] →
      ∃ quoted, fileUri directory origin = "file://".toList ++ quoted ∧ Text.IsUri quoted
        ∧ Text.ofUtf8? (Text.percentDecoded quoted) = some (Path.absolute directory filename))
    ∧ ∀ origin other : Origin, fileUri directory origin = fileUri directory other ↔
      file? origin = none ∧ file? other = none
      ∨ ∃ filename filename', file? origin = some filename ∧ file? other = some filename'
        ∧ Path.absolute directory filename = Path.absolute directory filename' := by
  refine ⟨fun origin filename hname hfilled => ?_, fun origin other => ?_⟩
  · have hfile : file? origin = some filename := by simp [file?, hname, hfilled]
    exact ⟨_, fileUri_of_file hfile directory, Text.isUri_percentQuoted _,
      Text.ofUtf8?_percentQuoted _⟩
  · cases horigin : file? origin with
    | none =>
      cases hother : file? other with
      | none => simp [fileUri_of_none horigin, fileUri_of_none hother]
      | some filename' => simp [fileUri_of_none horigin, fileUri_of_file hother]
    | some filename =>
      cases hother : file? other with
      | none => simp [fileUri_of_file horigin, fileUri_of_none hother]
      | some filename' =>
        -- behind `file://` the quoted paths tell the paths
        rw [fileUri_of_file horigin, fileUri_of_file hother, List.append_cancel_left_eq,
          Text.percentQuoted_inj]
        simp

/-- A letter of two bytes, a blank, and what looks like a triplet. -/
theorem fileUri_decodes_percent :
    fileUri "/work".toList ⟨some 3, some "ä %41?.scss".toList⟩
        = "file:///work/%C3%A4%20%2541?.scss".toList
    ∧ ∃ quoted, fileUri "/work".toList ⟨some 3, some "ä %41?.scss".toList⟩
          = "file://".toList ++ quoted
      ∧ Text.IsUri quoted
      ∧ Text.ofUtf8? (Text.percentDecoded quoted)
          = some (Path.absolute "/work".toList "ä %41?.scss".toList) :=
  ⟨by decide +kernel, (fileUri_decodes "/work".toList).1 _ _ rfl (by decide)⟩

end Location

end NestedSheet
