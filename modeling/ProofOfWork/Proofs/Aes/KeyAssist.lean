import ProofOfWork.Aes.KeyAssist
import ProofOfWork.Proofs.Aes.Columns
import ProofOfWork.Proofs.Pushed

/-!
# ProofOfWork.Proofs.Aes.KeyAssist — the schedule on lines is the schedule on words

A step on two lines makes eight words of the schedule.  The running sum of a line chains its words
as the recurrence does: word `8 + n` is word `n` plus a function of the word before it, which only
in every fourth place is more than that word itself (`nextKeys_keyLine`).
-/

namespace ProofOfWork

open Lanes

namespace Aes

/-! ### The running sum -/

section Sum

variable (x : Line)

@[simp] theorem word0_shiftWord : (shiftWord x).word0 = 0 := Packed.low_shiftLeft_word x.lo

@[simp] theorem word1_shiftWord : (shiftWord x).word1 = x.word0 := Packed.high_shiftLeft_word x.lo

@[simp] theorem word2_shiftWord : (shiftWord x).word2 = x.word1 := by
  change Packed.low (x.hi <<< 32 ||| x.lo >>> 32) = Packed.low (x.lo >>> 32)
  rw [Packed.low_or, Packed.low_shiftLeft_word, UInt32.zero_or]

@[simp] theorem word3_shiftWord : (shiftWord x).word3 = x.word2 := by
  change Packed.high (x.hi <<< 32 ||| x.lo >>> 32) = _
  rw [Packed.high_or, Packed.high_shiftRight_word, Packed.high_shiftLeft_word, UInt32.or_zero]
  rfl

end Sum

/-- Each word of the sum is the line's word plus the sum's word before it. -/
theorem runningXor_broadcast {w0 w1 w2 w3 v0 v1 v2 v3 t : UInt32} (h0 : v0 = w0 ^^^ t)
    (h1 : v1 = w1 ^^^ v0) (h2 : v2 = w2 ^^^ v1) (h3 : v3 = w3 ^^^ v2) :
    runningXor (Line.ofWords w0 w1 w2 w3) ^^^ broadcast t = Line.ofWords v0 v1 v2 v3 := by
  subst h0 h1 h2 h3
  apply Line.eq_of_words <;> simp [runningXor, broadcast] <;> ac_rfl

/-! ### Substituted words -/

theorem subWord_eq (w : UInt32) : subWord w = subColumn w := by
  have hmap : (leBytes32 w).map sub
      = #v[sub w.toUInt8, sub (row 1 w), sub (row 2 w), sub (row 3 w)] := by
    simp only [leBytes32, Vector.map_mk, List.map_toArray, List.map_cons, List.map_nil]
    rfl
  rw [subWord, hmap, subColumn, row_zero]
  rfl

theorem row_subWord (r : Fin 4) (w : UInt32) : row r (subWord w) = sub (row r w) := by
  rw [subWord_eq, subColumn, row_column]
  match r with
  | 0 | 1 | 2 | 3 => rfl

theorem row_rotWord (r : Fin 4) (w : UInt32) : row r (rotWord w) = row (r - 3) w := by
  have hturn : rotWord w = rotl32 w 24 := UInt32.or_comm ..
  rw [hturn]
  exact row_rotl32 r 3 w

/-- Bytes are substituted each by itself, so it does not matter when a word is turned. -/
theorem subWord_rotWord (w : UInt32) : subWord (rotWord w) = rotWord (subWord w) := by
  apply eq_of_rows
  intro r
  rw [row_subWord, row_rotWord, row_rotWord, row_subWord]

/-! ### The words of the schedule -/

theorem scheduleCore_first (m : Nat) (w : UInt32) :
    scheduleCore (8 * m) w = rotWord (subWord w) ^^^ roundConstant m := by
  rw [scheduleCore, if_pos (by omega), subWord_rotWord, Nat.mul_div_cancel_left m (by decide)]

theorem scheduleCore_fifth (m : Nat) (w : UInt32) : scheduleCore (8 * m + 4) w = subWord w := by
  rw [scheduleCore, if_neg (by omega), if_pos (by omega)]

theorem scheduleCore_other {n : Nat} (h : n % 4 ≠ 0) (w : UInt32) : scheduleCore n w = w := by
  rw [scheduleCore, if_neg (by omega), if_neg (by omega)]

section Schedule

variable (key : Vector UInt32 8)

theorem getElem_schedule_key {k : Nat} (hk : k < 8) : (scheduleWords key 32)[k] = key[k] :=
  getElem_pushed_of_le (f := scheduleWords key) (fun _ => rfl) (Nat.zero_le 32) hk

theorem getElem_schedule_next {n : Nat} (hn : n < 32) : (scheduleWords key 32)[8 + n]
    = (scheduleWords key 32)[n] ^^^ scheduleCore n (scheduleWords key 32)[7 + n] := by
  have hmade (k : Nat) (hk : k < 8 + n) :
      (scheduleWords key 32)[k] = (scheduleWords key n)[k] :=
    getElem_pushed_of_le (f := scheduleWords key) (fun _ => rfl) (Nat.le_of_lt hn) hk
  rw [hmade n (by omega), hmade (7 + n) (by omega)]
  exact getElem_pushed (f := scheduleWords key) (fun _ => rfl) hn

/-- The recurrence with its places named from outside. -/
theorem schedule_step (n : Nat) {i j p : Nat} (hn : n < 32) (hi : i = 8 + n) (hj : j = n)
    (hp : p = 7 + n) : (scheduleWords key 32)[i]
      = (scheduleWords key 32)[j] ^^^ scheduleCore n (scheduleWords key 32)[p] := by
  subst hi hj hp
  exact getElem_schedule_next key hn

/-- In all places but every fourth a word is the sum of two before it. -/
theorem schedule_step_other {n i j p : Nat} (h4 : n % 4 ≠ 0) (hn : n < 32) (hi : i = 8 + n)
    (hj : j = n) (hp : p = 7 + n) : (scheduleWords key 32)[i]
      = (scheduleWords key 32)[j] ^^^ (scheduleWords key 32)[p] := by
  rw [schedule_step key n hn hi hj hp, scheduleCore_other h4]

end Schedule

/-! ### The keys -/

/-- Four of forty words as a key. -/
def keyLine (w : Vector UInt32 40) (k : Nat) (hk : k < 10) : Line :=
  Line.ofWords w[4 * k] w[4 * k + 1] w[4 * k + 2] w[4 * k + 3]

section Keys

variable (key : Vector UInt32 8) {m : Nat} (hm : m < 4)
include hm

/-- The first key of a step; its first word takes in the turned word and the constant. -/
theorem evenKey_keyLine : runningXor (keyLine (scheduleWords key 32) (2 * m) (by omega))
      ^^^ broadcast (keyGenAssist (roundConstant m)
        (keyLine (scheduleWords key 32) (2 * m + 1) (by omega))).word3
    = keyLine (scheduleWords key 32) (2 * m + 2) (by omega) := by
  refine runningXor_broadcast ?_ (schedule_step_other key (n := 8 * m + 1) ?_ ?_ ?_ ?_ ?_)
    (schedule_step_other key (n := 8 * m + 2) ?_ ?_ ?_ ?_ ?_)
    (schedule_step_other key (n := 8 * m + 3) ?_ ?_ ?_ ?_ ?_) <;> try omega
  rw [keyGenAssist, Line.word3_ofWords, keyLine, Line.word3_ofWords, ← scheduleCore_first]
  exact schedule_step key (8 * m) (by omega) (by omega) (by omega) (by omega)

/-- The second key of a step; its first word takes in the substituted word. -/
theorem oddKey_keyLine : runningXor (keyLine (scheduleWords key 32) (2 * m + 1) (by omega))
      ^^^ broadcast (keyGenAssist 0
        (keyLine (scheduleWords key 32) (2 * m + 2) (by omega))).word2
    = keyLine (scheduleWords key 32) (2 * m + 3) (by omega) := by
  refine runningXor_broadcast ?_ (schedule_step_other key (n := 8 * m + 5) ?_ ?_ ?_ ?_ ?_)
    (schedule_step_other key (n := 8 * m + 6) ?_ ?_ ?_ ?_ ?_)
    (schedule_step_other key (n := 8 * m + 7) ?_ ?_ ?_ ?_ ?_) <;> try omega
  rw [keyGenAssist, Line.word2_ofWords, keyLine, Line.word3_ofWords, ← scheduleCore_fifth m]
  exact schedule_step key (8 * m + 4) (by omega) (by omega) (by omega) (by omega)

/-- From two keys of the schedule the step makes the next two. -/
theorem nextKeys_keyLine :
    nextKeys (roundConstant m) (keyLine (scheduleWords key 32) (2 * m) (by omega),
        keyLine (scheduleWords key 32) (2 * m + 1) (by omega))
      = (keyLine (scheduleWords key 32) (2 * m + 2) (by omega),
        keyLine (scheduleWords key 32) (2 * m + 3) (by omega)) := by
  rw [nextKeys, evenKey_keyLine key hm, oddKey_keyLine key hm]

end Keys

/-- The first two keys are the key itself. -/
theorem keyLine_of_lt (key : Vector UInt32 8) {k : Nat} (hk : k < 2) :
    keyLine (scheduleWords key 32) k (by omega)
      = Line.ofWords key[4 * k] key[4 * k + 1] key[4 * k + 2] key[4 * k + 3] := by
  rw [keyLine, getElem_schedule_key key (k := 4 * k) (by omega),
    getElem_schedule_key key (k := 4 * k + 1) (by omega),
    getElem_schedule_key key (k := 4 * k + 2) (by omega),
    getElem_schedule_key key (k := 4 * k + 3) (by omega)]

/-- Four steps make the ten keys. -/
theorem assistedKeys_keyLine (key : Vector UInt32 8) :
    assistedKeys (keyLine (scheduleWords key 32) 0 (by decide))
        (keyLine (scheduleWords key 32) 1 (by decide))
      = Vector.ofFn fun k : Fin 10 => keyLine (scheduleWords key 32) k k.isLt := by
  have h1 := nextKeys_keyLine key (show 0 < 4 by decide)
  have h2 := nextKeys_keyLine key (show 1 < 4 by decide)
  have h3 := nextKeys_keyLine key (show 2 < 4 by decide)
  have h4 := nextKeys_keyLine key (show 3 < 4 by decide)
  rw [show roundConstant 0 = 1 from rfl] at h1
  rw [show roundConstant 1 = 2 from rfl] at h2
  rw [show roundConstant 2 = 4 from rfl] at h3
  rw [show roundConstant 3 = 8 from rfl] at h4
  simp only [assistedKeys, h1, h2, h3, h4]
  apply Vector.ext
  intro k hk
  rw [Vector.getElem_ofFn]
  match k, hk with
  | 0, _ | 1, _ | 2, _ | 3, _ | 4, _ | 5, _ | 6, _ | 7, _ | 8, _ | 9, _ => rfl

theorem assistedKeys_eq_expandKey (k0 k1 : Line) : assistedKeys k0 k1 = expandKey k0 k1 := by
  have h := assistedKeys_keyLine
    #v[k0.word0, k0.word1, k0.word2, k0.word3, k1.word0, k1.word1, k1.word2, k1.word3]
  rw [keyLine_of_lt _ (k := 0) (by decide), keyLine_of_lt _ (k := 1) (by decide)] at h
  change assistedKeys (Line.ofWords k0.word0 k0.word1 k0.word2 k0.word3)
    (Line.ofWords k1.word0 k1.word1 k1.word2 k1.word3) = _ at h
  rw [Line.ofWords_words, Line.ofWords_words] at h
  exact h

end Aes

end ProofOfWork
