import ProofOfWork.Hex
import ProofOfWork.Proofs.Traversal

/-!
# ProofOfWork.Proofs.Hex — what hexadecimal text says

A text spells some bytes if its characters are digits and their values the halves of the bytes in
order.  The reader looks at the bytes of the text's UTF-8 form, two at a time; it takes exactly the
texts that spell something (`decode_eq_ok_iff`).  The writer gives the one spelling that is in
lower-case digits (`isLowerHex_iff`).
-/

namespace ProofOfWork.Hex

/-! ### Spelling -/

def lowerDigits : List Char :=
  ['0', '1', '2', '3', '4', '5', '6', '7', '8', '9', 'a', 'b', 'c', 'd', 'e', 'f']

def upperDigits : List Char :=
  ['0', '1', '2', '3', '4', '5', '6', '7', '8', '9', 'A', 'B', 'C', 'D', 'E', 'F']

/-- The value of a digit of either case. -/
def value? (c : Char) : Option Nat := (lowerDigits.idxOf? c).or (upperDigits.idxOf? c)

/-- The halves of some bytes in order, the higher half of each byte first. -/
def halves (b : List UInt8) : List Nat := b.flatMap fun v => [v.toNat / 16, v.toNat % 16]

/-- The characters are digits, and their values are the halves of the bytes. -/
def Spells (cs : List Char) (b : Bytes) : Prop := cs.map value? = (halves b.toList).map some

/-- The text spells the bytes in lower-case digits. -/
def IsLowerHex (text : String) (b : Bytes) : Prop :=
  Spells text.toList b ∧ ∀ c ∈ text.toList, c ∈ lowerDigits

theorem halves_cons (v : UInt8) (b : List UInt8) :
    halves (v :: b) = v.toNat / 16 :: v.toNat % 16 :: halves b := rfl

theorem length_halves (b : List UInt8) : (halves b).length = 2 * b.length := by
  induction b with
  | nil => rfl
  | cons v b ih =>
    rw [halves_cons, List.length_cons, List.length_cons, List.length_cons, ih]
    omega

theorem lt_of_mem_halves {b : List UInt8} {x : Nat} (h : x ∈ halves b) : x < 16 := by
  obtain ⟨v, -, hx⟩ := List.mem_flatMap.mp h
  have hv := v.toNat_lt
  simp only [List.mem_cons, List.not_mem_nil, or_false] at hx
  omega

section Spells

variable {cs : List Char} {b : Bytes} (h : Spells cs b)
include h

theorem Spells.length_eq : cs.length = 2 * b.size := by
  have hlength := congrArg List.length h
  rwa [List.length_map, List.length_map, length_halves, Array.length_toList] at hlength

theorem Spells.eq_nil_iff : cs = [] ↔ b = #[] := by
  rw [← List.length_eq_zero_iff, ← Array.size_eq_zero_iff, h.length_eq]
  omega

theorem Spells.isSome_value? : ∀ c ∈ cs, (value? c).isSome := by
  intro c hc
  have hvalue : value? c ∈ (halves b.toList).map some := h ▸ List.mem_map_of_mem hc
  obtain ⟨x, -, hx⟩ := List.mem_map.mp hvalue
  rw [← hx]
  rfl

end Spells

theorem mem_digits_of_value? {c : Char} (h : (value? c).isSome) :
    c ∈ lowerDigits ++ upperDigits := by
  refine Decidable.byContradiction fun hc => ?_
  rw [List.mem_append, not_or] at hc
  rw [value?, List.idxOf?_eq_none_iff.mpr hc.1, List.idxOf?_eq_none_iff.mpr hc.2] at h
  cases h

theorem lt_of_value? {c : Char} {x : Nat} (h : value? c = some x) : x < 16 := by
  have hdigits : (lowerDigits ++ upperDigits).all fun d => (value? d).all (· < 16) := by decide
  have hc := List.all_eq_true.mp hdigits c (mem_digits_of_value? (by rw [h]; rfl))
  rw [h] at hc
  exact of_decide_eq_true hc

/-- Two digits are the halves of a byte. -/
theorem exists_byte {c c' : Char} (h : (value? c).isSome) (h' : (value? c').isSome) :
    ∃ v : UInt8, value? c = some (v.toNat / 16) ∧ value? c' = some (v.toNat % 16) := by
  obtain ⟨x, hx⟩ := Option.isSome_iff_exists.mp h
  obtain ⟨y, hy⟩ := Option.isSome_iff_exists.mp h'
  have hx16 := lt_of_value? hx
  have hy16 := lt_of_value? hy
  have hv : (UInt8.ofNat (16 * x + y)).toNat = 16 * x + y :=
    UInt8.toNat_ofNat_of_lt (show 16 * x + y < 256 by omega)
  refine ⟨UInt8.ofNat (16 * x + y), ?_, ?_⟩
  · rw [hx, hv, show (16 * x + y) / 16 = x by omega]
  · rw [hy, hv, show (16 * x + y) % 16 = y by omega]

theorem exists_spells : ∀ {cs : List Char}, cs.length % 2 = 0 → (∀ c ∈ cs, (value? c).isSome) →
    ∃ b, Spells cs b
  | [], _, _ => ⟨#[], rfl⟩
  | [_], hlength, _ => by cases hlength
  | c :: c' :: cs, hlength, hdigits => by
    have hrest : cs.length % 2 = 0 := by
      simp only [List.length_cons] at hlength
      omega
    obtain ⟨b, hb⟩ := exists_spells hrest fun d hd =>
      hdigits d (List.mem_cons_of_mem c (List.mem_cons_of_mem c' hd))
    obtain ⟨v, hhigh, hlow⟩ := exists_byte (hdigits c List.mem_cons_self)
      (hdigits c' (List.mem_cons_of_mem c List.mem_cons_self))
    refine ⟨#[v] ++ b, ?_⟩
    rw [Spells, List.map_cons, List.map_cons, hhigh, hlow, hb, Array.toList_append]
    rfl

/-- An even number of digits spells some bytes, and nothing else does. -/
theorem exists_spells_iff {cs : List Char} :
    (∃ b, Spells cs b) ↔ cs.length % 2 = 0 ∧ ∀ c ∈ cs, (value? c).isSome := by
  constructor
  · rintro ⟨b, hb⟩
    exact ⟨by rw [hb.length_eq, Nat.mul_mod_right], hb.isSome_value?⟩
  · rintro ⟨hlength, hdigits⟩
    exact exists_spells hlength hdigits

/-! ### Characters and their bytes -/

/-- The value of a digit given by its code. -/
def byteValue? (c : UInt8) : Option Nat := (digit? c).map UInt8.toNat

theorem value?_ofNat : ∀ n < 128, value? (Char.ofNat n) = byteValue? n.toUInt8 := by
  decide +kernel

theorem byteValue?_of_ge : ∀ n < 256, 128 ≤ n → byteValue? n.toUInt8 = none := by
  decide +kernel

theorem toNat_lt_of_value? {c : Char} (h : (value? c).isSome) : c.toNat < 128 := by
  have hcodes : (lowerDigits ++ upperDigits).all (·.toNat < 128) := by decide
  exact of_decide_eq_true (List.all_eq_true.mp hcodes c (mem_digits_of_value? h))

/-- A character of ASCII is one byte, its code. -/
theorem utf8EncodeChar_ascii {c : Char} (h : c.toNat < 128) :
    String.utf8EncodeChar c = [c.toNat.toUInt8] :=
  if_pos (Nat.le_of_lt_succ h)

/-- Any other character starts with a byte that is no digit. -/
theorem utf8EncodeChar_wide {c : Char} (h : ¬ c.toNat < 128) :
    ∃ b rest, String.utf8EncodeChar c = b :: rest ∧ byteValue? b = none := by
  have hwide : ¬ c.val.toNat ≤ 127 := fun hle => h (Nat.lt_succ_of_le hle)
  rw [String.utf8EncodeChar]
  simp only [if_neg hwide]
  split
  · exact ⟨_, _, rfl, byteValue?_of_ge _ (by omega) (by omega)⟩
  · split
    · exact ⟨_, _, rfl, byteValue?_of_ge _ (by omega) (by omega)⟩
    · exact ⟨_, _, rfl, byteValue?_of_ge _ (by omega) (by omega)⟩

/-- The bytes of a text and its characters have the same digits. -/
theorem map_byteValue?_utf8 {cs : List Char} {xs : List Nat} :
    (cs.flatMap String.utf8EncodeChar).map byteValue? = xs.map some ↔
      cs.map value? = xs.map some := by
  induction cs generalizing xs with
  | nil => rfl
  | cons c cs ih =>
    rw [List.flatMap_cons, List.map_append, List.map_cons]
    by_cases hc : c.toNat < 128
    · have hvalue : byteValue? c.toNat.toUInt8 = value? c := by
        rw [← value?_ofNat c.toNat hc, Char.ofNat_toNat]
      rw [utf8EncodeChar_ascii hc, List.map_singleton, hvalue, List.singleton_append]
      cases xs with
      | nil => exact ⟨nofun, nofun⟩
      | cons x xs => rw [List.map_cons, List.cons.injEq, List.cons.injEq, ih]
    · obtain ⟨b, rest, hbytes, hb⟩ := utf8EncodeChar_wide hc
      have hvalue : value? c = none := by
        rw [← Option.not_isSome_iff_eq_none]
        exact fun h => hc (toNat_lt_of_value? h)
      -- Both sides are refuted by the first element, whatever bytes the character goes on with.
      rw [hbytes, List.map_cons, hb, hvalue]
      cases xs with
      | nil => exact ⟨nofun, nofun⟩
      | cons x xs => exact ⟨nofun, nofun⟩

/-! ### Reading -/

/-- The digit at a place, if there is one. -/
def digitAt? (text : Bytes) (k : Nat) : Option UInt8 := text[k]?.bind digit?

def valueAt? (text : Bytes) (k : Nat) : Option Nat := (digitAt? text k).map UInt8.toNat

theorem toNat_lt_of_digitAt? {text : Bytes} {k : Nat} {d : UInt8} (h : digitAt? text k = some d) :
    d.toNat < 16 := by
  have hall : ∀ n < 256, ∀ d ∈ digit? n.toUInt8, d.toNat < 16 := by decide +kernel
  obtain ⟨c, -, hd⟩ := Option.bind_eq_some_iff.mp h
  have hc := hall c.toNat c.toNat_lt
  rw [Nat.toUInt8_eq, UInt8.ofNat_toNat] at hc
  exact hc d hd

theorem readDigit_eq_ok_iff {text : Bytes} {i : Fin text.size} {d : UInt8} :
    readDigit text i = .ok d ↔ digitAt? text i.val = some d := by
  rw [digitAt?, Array.getElem?_eq_getElem i.isLt, Option.bind_some, readDigit, Fin.getElem_fin]
  cases digit? text[i.val] with
  | none => simp only [reduceCtorEq]
  | some d' => rw [Except.ok.injEq, Option.some.injEq]

/-- Digits put together make a byte of which they are the halves. -/
theorem joined_eq_iff {h l v : UInt8} (hh : h.toNat < 16) (hl : l.toNat < 16) :
    h * 16 + l = v ↔ h.toNat = v.toNat / 16 ∧ l.toNat = v.toNat % 16 := by
  have hv := v.toNat_lt
  simp only [← UInt8.toNat_inj, UInt8.toNat_add, UInt8.toNat_mul, UInt8.toNat_ofNat,
    Nat.reducePow, Nat.reduceMod]
  omega

theorem readPair_eq_ok_iff {text : Bytes} {i : Fin (text.size / 2)} {v : UInt8} :
    readPair text i = .ok v ↔
      valueAt? text (2 * i.val) = some (v.toNat / 16) ∧
        valueAt? text (2 * i.val + 1) = some (v.toNat % 16) := by
  rw [valueAt?, valueAt?, Option.map_eq_some_iff, Option.map_eq_some_iff, readPair, bind_eq_ok_iff]
  constructor
  · rintro ⟨h, hh, hrest⟩
    obtain ⟨l, hl, hv⟩ := bind_eq_ok_iff.mp hrest
    rw [readDigit_eq_ok_iff] at hh hl
    obtain ⟨hhv, hlv⟩ := (joined_eq_iff (toNat_lt_of_digitAt? hh) (toNat_lt_of_digitAt? hl)).mp
      (Except.ok.inj hv)
    exact ⟨⟨h, hh, hhv⟩, l, hl, hlv⟩
  · rintro ⟨⟨h, hh, hhv⟩, l, hl, hlv⟩
    have hv := (joined_eq_iff (toNat_lt_of_digitAt? hh) (toNat_lt_of_digitAt? hl)).mpr ⟨hhv, hlv⟩
    refine ⟨h, readDigit_eq_ok_iff.mpr hh, bind_eq_ok_iff.mpr ⟨l, readDigit_eq_ok_iff.mpr hl, ?_⟩⟩
    exact congrArg Except.ok hv

/-- The bytes that are read are those whose halves the digits are. -/
theorem map_readPair_iff {text : Bytes} {places : List (Fin (text.size / 2))} {b : List UInt8} :
    places.map (readPair text) = b.map .ok ↔
      places.flatMap (fun i => [valueAt? text (2 * i.val), valueAt? text (2 * i.val + 1)])
        = (halves b).map some := by
  induction places generalizing b with
  | nil =>
    cases b with
    | nil => exact ⟨fun _ => rfl, fun _ => rfl⟩
    | cons v b => exact ⟨nofun, nofun⟩
  | cons i places ih =>
    cases b with
    | nil => exact ⟨nofun, nofun⟩
    | cons v b =>
      rw [List.map_cons, List.map_cons, List.cons.injEq, ih, readPair_eq_ok_iff, List.flatMap_cons,
        halves_cons, List.map_cons, List.map_cons, List.cons_append, List.cons_append,
        List.nil_append, List.cons.injEq, List.cons.injEq, and_assoc]

/-- A list of even length, two members at a time. -/
theorem map_eq_flatMap_pairs {α β : Type} (g : α → Option β) {l : List α} {n : Nat}
    (h : l.length = 2 * n) :
    l.map g = (List.finRange n).flatMap fun i =>
      [l[2 * i.val]?.bind g, l[2 * i.val + 1]?.bind g] := by
  induction n generalizing l with
  | zero =>
    rw [List.eq_nil_of_length_eq_zero h]
    rfl
  | succ n ih =>
    match l, h with
    | x :: y :: l, h =>
      have hl : l.length = 2 * n := by
        simp only [List.length_cons] at h
        omega
      rw [List.finRange_succ, List.flatMap_cons, List.flatMap_map, List.map_cons, List.map_cons,
        ih hl]
      rfl

theorem decodeBytes_eq_ok_iff {text b : Bytes} :
    decodeBytes text = .ok b ↔ text.toList.map byteValue? = (halves b.toList).map some := by
  have hsize : text.toList.length = text.size := Array.length_toList
  rw [decodeBytes]
  by_cases hodd : text.size % 2 = 1
  · rw [if_pos hodd]
    refine ⟨nofun, fun h => ?_⟩
    have hlength := congrArg List.length h
    rw [List.length_map, List.length_map, length_halves] at hlength
    omega
  · have hpairs : text.toList.length = 2 * (text.size / 2) := by omega
    have hplaces (k : Nat) : text.toList[k]?.bind byteValue? = valueAt? text k := by
      rw [Array.getElem?_toList, valueAt?, digitAt?, Option.map_bind]
      rfl
    -- By pairs the text has the shape of the traversal.
    simp only [map_eq_flatMap_pairs byteValue? hpairs, hplaces]
    rw [if_neg hodd, map_eq_ok_iff, ← map_readPair_iff, ← mapM_eq_ok_iff]
    constructor
    · rintro ⟨bytes, hbytes, rfl⟩
      exact hbytes
    · exact fun h => ⟨b.toList, h, Array.toArray_toList⟩

theorem decode_eq_ok_iff {text : String} {b : Bytes} :
    decode text = .ok b ↔ Spells text.toList b := by
  have hbytes : text.toUTF8.data.toList = text.toList.flatMap String.utf8EncodeChar := by
    rw [String.toUTF8, ← String.utf8Encode_toList]
    exact List.toList_data_toByteArray
  rw [decode, decodeBytes_eq_ok_iff, hbytes, map_byteValue?_utf8, Spells]

/-! ### Writing -/

theorem toList_encode (b : Bytes) : (encode b).toList = (halves b.toList).map Nat.digitChar := by
  rw [encode, String.toList_ofList, halves, List.map_flatMap]
  rfl

theorem isLowerHex_iff {text : String} {b : Bytes} : IsLowerHex text b ↔ text = encode b := by
  have hread : ∀ x < 16, value? x.digitChar = some x ∧ x.digitChar ∈ lowerDigits := by decide
  have hwrite : lowerDigits.all fun c => (value? c).map Nat.digitChar = some c := by decide
  constructor
  · rintro ⟨hspells, hlower⟩
    have hchars : text.toList.map some = ((halves b.toList).map Nat.digitChar).map some := by
      calc text.toList.map some
          = text.toList.map fun c => (value? c).map Nat.digitChar :=
            List.map_congr_left fun c hc =>
              (of_decide_eq_true (List.all_eq_true.mp hwrite c (hlower c hc))).symm
        _ = (text.toList.map value?).map (Option.map Nat.digitChar) := by rw [List.map_map]; rfl
        _ = ((halves b.toList).map Nat.digitChar).map some := by
          rw [hspells, List.map_map, List.map_map]; rfl
    have hlist : text.toList = (encode b).toList := by
      rw [toList_encode]
      exact (List.map_inj_right fun _ _ => Option.some.inj).mp hchars
    exact String.toList_inj.mp hlist
  · rintro rfl
    rw [IsLowerHex, Spells, toList_encode]
    refine ⟨?_, fun c hc => ?_⟩
    · rw [List.map_map]
      exact List.map_congr_left fun x hx => (hread x (lt_of_mem_halves hx)).1
    · obtain ⟨x, hx, rfl⟩ := List.mem_map.mp hc
      exact (hread x (lt_of_mem_halves hx)).2

theorem decode_encode (b : Bytes) : decode (encode b) = .ok b :=
  decode_eq_ok_iff.mpr (isLowerHex_iff.mpr rfl).1

end ProofOfWork.Hex
