import ProofOfWork.Proofs.Aes.Algebraic
import ProofOfWork.Proofs.Aes.KeyAssist
import ProofOfWork.Proofs.StateBytes

/-!
# ProofOfWork.Proofs.Aes.Expansion — the key expansion of the standard

The standard expands a key of eight words, each of four bytes, into forty by a recurrence on bytes.
The schedule holds a word as a number, with its first byte lowest; seen as bytes, each of its words is
the one that the recurrence makes (`isExpansion_scheduleBytes`), and since every word is determined by
earlier ones, no other words are the expansion of that key (`IsExpansion.unique`).  The schedule on
lines reads the key in two pieces, and makes the same round keys (`expansions_agree`).
-/

namespace ProofOfWork.Aes

/-! ### The recurrence on bytes -/

/-- A word of the schedule, its first byte first. -/
abbrev KeyBytes := Vector UInt8 4

def addBytes (v w : KeyBytes) : KeyBytes := Vector.zipWith (· ^^^ ·) v w

/-- The first byte goes last. -/
def rotBytes (w : KeyBytes) : KeyBytes := #v[w.get 1, w.get 2, w.get 3, w.get 0]

def subBytes (w : KeyBytes) : KeyBytes := w.map sub

/-- The constants start with one, and each is the double of the one before it. -/
def constantBytes (i : Nat) : KeyBytes := #v[Nat.repeat double (i - 1) 1, 0, 0, 0]

/-- What word `i` adds to the word eight places back, from the word before it. -/
def expansionCore (i : Nat) (w : KeyBytes) : KeyBytes :=
  if i % 8 = 0 then addBytes (subBytes (rotBytes w)) (constantBytes (i / 8))
  else if i % 8 = 4 then subBytes w
  else w

/-- The forty words are those that the standard makes of the key. -/
structure IsExpansion (key : Bytes) (w : Vector KeyBytes 40) : Prop where
  key : ∀ (i : Fin 40) (r : Fin 4), i.val < 8 → key[4 * i.val + r.val]? = some ((w.get i).get r)
  next : ∀ i j p : Fin 40, i.val = j.val + 8 → i.val = p.val + 1 →
    w.get i = addBytes (w.get j) (expansionCore i.val (w.get p))

/-- Four words make a key. -/
def AreKeysOf (keys : RoundKeys) (w : Vector KeyBytes 40) : Prop :=
  ∀ (k : Fin 10) (r c : Fin 4) (i : Fin 40), i.val = 4 * k.val + c.val →
    stateByte (keys.get k) r c = (w.get i).get r

/-! ### Words and their bytes -/

theorem get_leBytes32 (x : UInt32) (r : Fin 4) : (leBytes32 x).get r = row r x := by
  match r with
  | 0 => exact (row_zero x).symm
  | 1 | 2 | 3 => rfl

theorem eq_of_get_bytes {v w : KeyBytes} (h : ∀ r : Fin 4, v.get r = w.get r) : v = w := by
  apply Vector.ext
  intro i hi
  exact h ⟨i, hi⟩

theorem leBytes32_xor (x y : UInt32) :
    leBytes32 (x ^^^ y) = addBytes (leBytes32 x) (leBytes32 y) := by
  apply eq_of_get_bytes
  intro r
  have hadd : (addBytes (leBytes32 x) (leBytes32 y)).get r
      = (leBytes32 x).get r ^^^ (leBytes32 y).get r := Vector.getElem_zipWith r.isLt
  rw [hadd, get_leBytes32, get_leBytes32, get_leBytes32, row_xor]

theorem leBytes32_subWord (x : UInt32) : leBytes32 (subWord x) = subBytes (leBytes32 x) := by
  apply eq_of_get_bytes
  intro r
  have hsub : (subBytes (leBytes32 x)).get r = sub ((leBytes32 x).get r) :=
    Vector.getElem_map sub r.isLt
  rw [hsub, get_leBytes32, get_leBytes32, row_subWord]

theorem leBytes32_rotWord (x : UInt32) : leBytes32 (rotWord x) = rotBytes (leBytes32 x) := by
  apply eq_of_get_bytes
  intro r
  rw [get_leBytes32, row_rotWord, rotBytes]
  simp only [get_leBytes32]
  match r with
  | 0 | 1 | 2 | 3 => rfl

theorem leBytes32_roundConstant {m : Nat} (hm : m < 4) :
    leBytes32 (roundConstant m) = constantBytes (m + 1) := by
  obtain rfl | rfl | rfl | rfl : m = 0 ∨ m = 1 ∨ m = 2 ∨ m = 3 := by omega
  all_goals decide

/-- The word made of `w` is made of the bytes of `w`. -/
theorem leBytes32_scheduleCore {n : Nat} (hn : n < 32) (w : UInt32) :
    leBytes32 (scheduleCore n w) = expansionCore (n + 8) (leBytes32 w) := by
  have hmod : (n + 8) % 8 = n % 8 := Nat.add_mod_right n 8
  have hdiv : (n + 8) / 8 = n / 8 + 1 := Nat.add_div_right n (by decide)
  rw [scheduleCore, expansionCore, hmod, hdiv]
  split_ifs
  · rw [leBytes32_xor, leBytes32_subWord, leBytes32_rotWord, leBytes32_roundConstant (by omega)]
  · exact leBytes32_subWord w
  · rfl

/-! ### The schedule is the expansion -/

theorem stateColumn_keyLine (w : Vector UInt32 40) {k : Nat} (hk : k < 10) (c : Fin 4) {i : Fin 40}
    (hi : i.val = 4 * k + c.val) : stateColumn (keyLine w k hk) c = w.get i := by
  obtain ⟨i, hi40⟩ := i
  obtain rfl : i = 4 * k + c.val := hi
  rw [keyLine, stateColumn_ofWords]
  obtain rfl | rfl | rfl | rfl : c = 0 ∨ c = 1 ∨ c = 2 ∨ c = 3 := by omega
  all_goals rfl

section Schedule

variable (words : Vector UInt32 8)

/-- The forty words of the schedule, as bytes. -/
def scheduleBytes : Vector KeyBytes 40 := (scheduleWords words 32).map leBytes32

theorem get_scheduleBytes (i : Fin 40) :
    (scheduleBytes words).get i = leBytes32 ((scheduleWords words 32).get i) :=
  Vector.getElem_map leBytes32 i.isLt

theorem isExpansion_scheduleBytes {key : Bytes}
    (hkey : ∀ (i : Nat) (hi : i < 8) (r : Fin 4), key[4 * i + r.val]? = some (row r words[i])) :
    IsExpansion key (scheduleBytes words) where
  key := by
    intro i r hi
    have hword : (scheduleWords words 32).get i = words[i.val] := getElem_schedule_key words hi
    rw [get_scheduleBytes, get_leBytes32, hword, hkey i.val hi r]
  next := by
    intro i j p hj hp
    have hi := i.isLt
    have hstep : (scheduleWords words 32).get i
        = (scheduleWords words 32).get j ^^^ scheduleCore j.val ((scheduleWords words 32).get p) :=
      schedule_step words j.val (by omega) (by omega) rfl (by omega)
    rw [get_scheduleBytes, get_scheduleBytes, get_scheduleBytes, hstep, leBytes32_xor,
      leBytes32_scheduleCore (by omega), hj]

theorem areKeysOf_scheduleBytes :
    AreKeysOf (Vector.ofFn fun k : Fin 10 => keyLine (scheduleWords words 32) k.val k.isLt)
      (scheduleBytes words) := by
  intro k r c i hi
  have hkey : (Vector.ofFn fun k : Fin 10 => keyLine (scheduleWords words 32) k.val k.isLt).get k
      = keyLine (scheduleWords words 32) k.val k.isLt := Vector.getElem_ofFn k.isLt
  rw [hkey, stateByte_eq, stateColumn_keyLine _ k.isLt c hi, get_scheduleBytes, get_leBytes32]

end Schedule

/-- Two lines with the first 32 bytes of a key make keys of the expansion. -/
theorem exists_expansion {key : Bytes} {k0 k1 : Line}
    (h0 : ∀ r c : Fin 4, key[4 * c.val + r.val]? = some (stateByte k0 r c))
    (h1 : ∀ r c : Fin 4, key[16 + (4 * c.val + r.val)]? = some (stateByte k1 r c)) :
    ∃ w, IsExpansion key w ∧ AreKeysOf (expandKey k0 k1) w := by
  refine ⟨_, isExpansion_scheduleBytes _ fun i hi r => ?_, areKeysOf_scheduleBytes _⟩
  by_cases hfirst : i < 4
  · rw [h0 r ⟨i, hfirst⟩, stateByte_eq]
    obtain rfl | rfl | rfl | rfl : i = 0 ∨ i = 1 ∨ i = 2 ∨ i = 3 := by omega
    all_goals rfl
  · have hplace : 4 * i + r.val = 16 + (4 * (i - 4) + r.val) := by omega
    rw [hplace, h1 r ⟨i - 4, by omega⟩, stateByte_eq]
    obtain rfl | rfl | rfl | rfl : i = 4 ∨ i = 5 ∨ i = 6 ∨ i = 7 := by omega
    all_goals rfl

/-! ### One expansion, one list of keys -/

section Unique

variable {key : Bytes} {v w : Vector KeyBytes 40}

/-- Every word is determined by earlier ones. -/
theorem IsExpansion.unique (hv : IsExpansion key v) (hw : IsExpansion key w) : v = w := by
  have hword : ∀ n (hn : n < 40), v.get ⟨n, hn⟩ = w.get ⟨n, hn⟩ := by
    intro n
    induction n using Nat.strong_induction_on with
    | _ n ih =>
      intro hn
      by_cases hkey : n < 8
      · apply eq_of_get_bytes
        intro r
        have hbyte := hv.key ⟨n, hn⟩ r hkey
        rw [hw.key ⟨n, hn⟩ r hkey] at hbyte
        exact (Option.some.inj hbyte).symm
      · have hback : n - 8 < 40 := by omega
        have hbefore : n - 1 < 40 := by omega
        have hj : n = n - 8 + 8 := by omega
        have hp : n = n - 1 + 1 := by omega
        rw [hv.next ⟨n, hn⟩ ⟨n - 8, hback⟩ ⟨n - 1, hbefore⟩ hj hp,
          hw.next ⟨n, hn⟩ ⟨n - 8, hback⟩ ⟨n - 1, hbefore⟩ hj hp,
          ih (n - 8) (by omega), ih (n - 1) (by omega)]
  apply Vector.ext
  intro n hn
  exact hword n hn

/-- Only the bytes of the first eight words are read. -/
theorem IsExpansion.congr {key' : Bytes} (h : ∀ i < 32, key[i]? = key'[i]?)
    (hw : IsExpansion key w) : IsExpansion key' w where
  key := by
    intro i r hi
    rw [← h (4 * i.val + r.val) (by omega)]
    exact hw.key i r hi
  next := hw.next

theorem AreKeysOf.unique {keys keys' : RoundKeys} (h : AreKeysOf keys w) (h' : AreKeysOf keys' w) :
    keys = keys' := by
  have hline (k : Fin 10) : keys.get k = keys'.get k := by
    have hcolumn (c : Fin 4) : stateColumn (keys.get k) c = stateColumn (keys'.get k) c := by
      apply eq_of_rows
      intro r
      have hplace : 4 * k.val + c.val < 40 := by omega
      rw [← stateByte_eq, ← stateByte_eq, h k r c ⟨_, hplace⟩ rfl, h' k r c ⟨_, hplace⟩ rfl]
    exact Line.eq_of_words (hcolumn 0) (hcolumn 1) (hcolumn 2) (hcolumn 3)
  apply Vector.ext
  intro k hk
  exact hline ⟨k, hk⟩

end Unique

/-! ### Keys as they are read -/

theorem ofMessage?_extract (key : Bytes) {p q : Nat} (hq : q = p + 16) (h : p + 16 ≤ key.size) :
    Line.ofMessage? (key.extract p q) = some (Line.ofBytes (slice key.toVector p 16 h)) := by
  subst hq
  have hsize : (key.extract p (p + 16)).size = 16 := by
    rw [Array.size_extract]
    omega
  have hroom : 0 + 16 ≤ (key.extract p (p + 16)).size := Nat.le_of_eq hsize.symm
  have hslice : slice (key.extract p (p + 16)).toVector 0 16 hroom = slice key.toVector p 16 h := by
    apply Vector.ext
    intro i hi
    rw [getElem_slice, getElem_slice]
    simp
  rw [Line.ofMessage?, dif_pos (Nat.le_of_eq hsize.symm), hslice]

/-- The bytes of a line that is read from a key. -/
theorem getElem?_key (key : Bytes) {p : Nat} (h : p + 16 ≤ key.size) (r c : Fin 4) :
    key[p + (4 * c.val + r.val)]?
      = some (stateByte (Line.ofBytes (slice key.toVector p 16 h)) r c) := by
  have hplace := place_lt r c
  have hbyte : (slice key.toVector p 16 h).get ⟨4 * c.val + r.val, hplace⟩
      = key[p + (4 * c.val + r.val)] := getElem_slice key.toVector h hplace
  rw [stateByte, Line.bytes_ofBytes, hbyte]
  exact Array.getElem?_eq_getElem _

/-- A key of 32 bytes or more has round keys, and these are made of its expansion. -/
theorem exists_roundKeys? {key : Bytes} (h : 32 ≤ key.size) :
    ∃ keys w, roundKeys? key = some keys ∧ IsExpansion key w ∧ AreKeysOf keys w := by
  have hlo : 0 + 16 ≤ key.size := by omega
  have hfirst (r c : Fin 4) := getElem?_key key hlo r c
  simp only [Nat.zero_add] at hfirst
  obtain ⟨w, hwords, hkeys⟩ := exists_expansion hfirst (getElem?_key key h)
  exact ⟨_, w, dif_pos h, hwords, hkeys⟩

/-- A key that is too short for the one is too short for the other. -/
theorem assistedRoundKeys?_eq_roundKeys? (key : Bytes) :
    assistedRoundKeys? key = roundKeys? key := by
  by_cases h : 32 ≤ key.size
  · rw [roundKeys?, dif_pos h, assistedRoundKeys?, ofMessage?_extract key rfl (by omega),
      ofMessage?_extract key rfl h]
    exact congrArg some (assistedKeys_eq_expandKey _ _)
  · have hshort : ¬ 16 ≤ (key.extract 16 32).size := by
      rw [Array.size_extract]
      omega
    have hsecond : Line.ofMessage? (key.extract 16 32) = none := dif_neg hshort
    rw [roundKeys?, dif_neg h, assistedRoundKeys?, hsecond]
    cases Line.ofMessage? (key.extract 0 16) with
    | none | some => rfl

/-- Keys that start with the same 32 bytes make the same round keys. -/
theorem roundKeys?_congr {key key' : Bytes} (h : ∀ i < 32, key[i]? = key'[i]?) :
    roundKeys? key = roundKeys? key' := by
  have hlast := h 31 (by decide)
  by_cases hkey : 32 ≤ key.size
  · have hkey' : 32 ≤ key'.size := by
      rw [Array.getElem?_eq_getElem (show 31 < key.size by omega)] at hlast
      have hlt := (Array.getElem?_eq_some_iff.mp hlast.symm).1
      omega
    obtain ⟨keys, w, hsome, hwords, hkeys⟩ := exists_roundKeys? hkey
    obtain ⟨keys', w', hsome', hwords', hkeys'⟩ := exists_roundKeys? hkey'
    obtain rfl := (hwords.congr h).unique hwords'
    rw [hsome, hsome', hkeys.unique hkeys']
  · have hkey' : ¬ 32 ≤ key'.size := by
      rw [Array.getElem?_eq_none (by omega)] at hlast
      have hle := Array.getElem?_eq_none_iff.mp hlast.symm
      omega
    rw [roundKeys?, roundKeys?, dif_neg hkey, dif_neg hkey']

/-! ### The two schedules -/

/-- The schedule on words and the schedule on lines make the same round keys.  Every key of 32 bytes
or more has them; their forty words are those that the standard makes of the key, and the bytes after
the first 32 play no part. -/
theorem expansions_agree :
    (∀ key : Bytes, 32 ≤ key.size → ∃ keys w,
      roundKeys? key = some keys ∧ assistedRoundKeys? key = some keys ∧ AreKeysOf keys w ∧
        ∀ v, IsExpansion key v ↔ v = w) ∧
    ∀ key key' : Bytes, (∀ i < 32, key[i]? = key'[i]?) →
      roundKeys? key = roundKeys? key' ∧ assistedRoundKeys? key = assistedRoundKeys? key' := by
  refine ⟨fun key h => ?_, fun key key' h => ?_⟩
  · obtain ⟨keys, w, hsome, hwords, hkeys⟩ := exists_roundKeys? h
    refine ⟨keys, w, hsome, ?_, hkeys, fun v => ⟨fun hv => hv.unique hwords, ?_⟩⟩
    · rw [assistedRoundKeys?_eq_roundKeys?, hsome]
    · rintro rfl
      exact hwords
  · rw [assistedRoundKeys?_eq_roundKeys?, assistedRoundKeys?_eq_roundKeys?]
    exact ⟨roundKeys?_congr h, roundKeys?_congr h⟩

/-- A key of 256 bits whose expansion the standard prints, here with one more byte after it. -/
theorem expansions_agree_longer :
    let key : Bytes := #[0x60, 0x3d, 0xeb, 0x10, 0x15, 0xca, 0x71, 0xbe, 0x2b, 0x73, 0xae, 0xf0, 0x85,
      0x7d, 0x77, 0x81, 0x1f, 0x35, 0x2c, 0x07, 0x3b, 0x61, 0x08, 0xd7, 0x2d, 0x98, 0x10, 0xa3, 0x09,
      0x14, 0xdf, 0xf4]
    let longer := key.push 0xff
    (∃ keys w, roundKeys? longer = some keys ∧ assistedRoundKeys? longer = some keys ∧
      AreKeysOf keys w ∧ IsExpansion longer w) ∧
      assistedRoundKeys? longer = assistedRoundKeys? key ∧
      (assistedRoundKeys? key).map (fun keys => (keys.get 5).bytes)
        = some #v[0xb5, 0xa9, 0x32, 0x8a, 0x26, 0x78, 0xa6, 0x47, 0x98, 0x31, 0x22, 0x29, 0x2f, 0x6c,
          0x79, 0xb3] := by
  intro key longer
  obtain ⟨hagree, hfirst⟩ := expansions_agree
  obtain ⟨keys, w, hkeys, hassisted, hwords, hunique⟩ := hagree longer (by decide)
  have hsame : ∀ i < 32, longer[i]? = key[i]? := by decide
  exact ⟨⟨keys, w, hkeys, hassisted, hwords, (hunique w).mpr rfl⟩, (hfirst longer key hsame).2,
    by decide +kernel⟩

end ProofOfWork.Aes
