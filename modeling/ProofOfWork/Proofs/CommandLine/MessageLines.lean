import Mathlib.Data.List.Forall2
import ProofOfWork.CommandLine.Outcome
import ProofOfWork.Proofs.Hex
import ProofOfWork.Proofs.Sha256.Padding

/-!
# ProofOfWork.Proofs.CommandLine.MessageLines — the lines that are printed for messages

A message is read by itself: it has a block if it stands for at most 55 bytes, and else a fault that
names it (`messageBlock_eq_ok_iff`, `faultOf_of_error`).  The list is read through before anything
is hashed, so that a fault anywhere leaves no line (`exists_first_fault`); without one each line has
the standard's digest of its message, on whatever unit the batch is hashed (`exists_digestLines`).
-/

namespace ProofOfWork.CommandLine

open Processor Sha256

/-! ### One message -/

/-- The bytes that a message stands for: those that it spells, or its own. -/
def MessageText : Bool → String → Bytes → Prop
  | true, message, bytes => Hex.Spells message.toList bytes
  | false, message, bytes => bytes = message.toUTF8.data

/-- A message that stands for at most 55 bytes. -/
def Admitted (hex : Bool) (message : String) : Prop :=
  ∃ bytes, MessageText hex message bytes ∧ bytes.size ≤ 55

/-- A failure that is about the message, because it is no hexadecimal text or too long. -/
inductive FaultOf (hex : Bool) (message : String) : Failure → Prop
  | text (cause : Hex.ReadError) : hex = true → (¬ ∃ bytes, Hex.Spells message.toList bytes) →
      Hex.decode message = .error cause → FaultOf hex message (.messageText message cause)
  | length (bytes : Bytes) : MessageText hex message bytes → 55 < bytes.size →
      FaultOf hex message (.messageLength message)

/-- The digest of the message's bytes in lower-case digits, two blanks, and the message. -/
def IsDigestLine (hex : Bool) (message line : String) : Prop :=
  ∃ bytes digits, MessageText hex message bytes ∧
    Hex.IsLowerHex digits (Standard.digest bytes).toArray ∧ line = digits ++ "  " ++ message

section Message

variable {hex : Bool} {message : String}

theorem messageBytes_eq_ok_iff {bytes : Bytes} :
    messageBytes hex message = .ok bytes ↔ MessageText hex message bytes := by
  unfold messageBytes MessageText
  cases hex with
  | true => rw [if_pos rfl, mapError_eq_ok_iff, Hex.decode_eq_ok_iff]
  | false => exact ⟨fun h => (Except.ok.inj h).symm, fun h => h ▸ rfl⟩

theorem messageBlock_eq_ok_iff {b : Block} : messageBlock hex message = .ok b ↔
    ∃ bytes, MessageText hex message bytes ∧ oneBlock? bytes = some b := by
  rw [messageBlock, bind_eq_ok_iff]
  refine exists_congr fun bytes => and_congr messageBytes_eq_ok_iff ?_
  cases oneBlock? bytes with
  | none => exact ⟨nofun, nofun⟩
  | some b' => exact ⟨fun h => congrArg some (Except.ok.inj h), fun h => by cases h; rfl⟩

theorem exists_messageBlock_iff :
    (∃ b, messageBlock hex message = .ok b) ↔ Admitted hex message := by
  constructor
  · rintro ⟨b, hb⟩
    obtain ⟨bytes, htext, hblock⟩ := messageBlock_eq_ok_iff.mp hb
    exact ⟨bytes, htext, exists_oneBlock?_iff.mp ⟨b, hblock⟩⟩
  · rintro ⟨bytes, htext, hsize⟩
    obtain ⟨b, hblock⟩ := exists_oneBlock?_iff.mpr hsize
    exact ⟨b, messageBlock_eq_ok_iff.mpr ⟨bytes, htext, hblock⟩⟩

theorem messageBytes_eq_error {e : Failure} (h : messageBytes hex message = .error e) :
    ∃ cause, hex = true ∧ Hex.decode message = .error cause ∧ e = .messageText message cause := by
  unfold messageBytes at h
  cases hex with
  | false => cases h
  | true =>
    rw [if_pos rfl] at h
    cases hdecode : Hex.decode message with
    | ok bytes =>
      rw [hdecode] at h
      cases h
    | error cause =>
      rw [hdecode] at h
      cases h
      exact ⟨cause, rfl, rfl, rfl⟩

theorem messageBlock_of_bytes {bytes : Bytes} (h : messageBytes hex message = .ok bytes) :
    messageBlock hex message = (oneBlock? bytes).elim (.error (.messageLength message)) .ok := by
  rw [messageBlock, h]
  dsimp only [bind, Except.bind]
  cases oneBlock? bytes <;> rfl

/-- The first check that fails is the fault. -/
theorem faultOf_of_error {e : Failure} (h : messageBlock hex message = .error e) :
    FaultOf hex message e := by
  cases hbytes : messageBytes hex message with
  | error e' =>
    obtain ⟨cause, rfl, hdecode, rfl⟩ := messageBytes_eq_error hbytes
    rw [messageBlock, hbytes] at h
    cases h
    refine .text cause rfl ?_ hdecode
    rintro ⟨bytes, hspells⟩
    cases hdecode.symm.trans (Hex.decode_eq_ok_iff.mpr hspells)
  | ok bytes =>
    rw [messageBlock_of_bytes hbytes] at h
    cases hblock : oneBlock? bytes with
    | some b =>
      rw [hblock] at h
      cases h
    | none =>
      rw [hblock] at h
      cases h
      refine .length bytes (messageBytes_eq_ok_iff.mp hbytes) (Nat.lt_of_not_le fun hsize => ?_)
      obtain ⟨b, hb⟩ := exists_oneBlock?_iff.mpr hsize
      cases hblock.symm.trans hb

theorem FaultOf.message_eq {e : Failure} (h : FaultOf hex message e) :
    e.message = "Not valid hex: " ++ message ∨
      e.message = "Message longer than 55 bytes: " ++ message := by
  cases h with
  | text cause _ _ _ => exact .inl rfl
  | length bytes _ _ => exact .inr rfl

theorem isDigestLine_of_block {b : Block} (h : messageBlock hex message = .ok b) :
    IsDigestLine hex message (digestLine message (blockDigest b)) := by
  obtain ⟨bytes, htext, hblock⟩ := messageBlock_eq_ok_iff.mp h
  refine ⟨bytes, Hex.encode (blockDigest b).toArray, htext, ?_, rfl⟩
  rw [Hex.isLowerHex_iff, blockDigest_of_oneBlock hblock]

end Message

/-! ### All messages -/

section Messages

variable {hex : Bool} {messages : List String}

theorem exists_blocks_iff : (∃ blocks, messages.mapM (messageBlock hex) = .ok blocks) ↔
    ∀ m ∈ messages, Admitted hex m := by
  rw [exists_mapM_eq_ok_iff]
  exact forall₂_congr fun m _ => exists_messageBlock_iff

/-- The blocks are those of the messages, in order. -/
theorem forall₂_blocks {blocks : List Block}
    (h : messages.mapM (messageBlock hex) = .ok blocks) :
    List.Forall₂ (fun m b => messageBlock hex m = .ok b) messages blocks := by
  have hblocks := mapM_eq_ok_iff.mp h
  rwa [← List.forall₂_eq_eq_eq, List.forall₂_map_left_iff, List.forall₂_map_right_iff] at hblocks

theorem forall₂_digestLine {blocks : List Block}
    (h : List.Forall₂ (fun m b => messageBlock hex m = .ok b) messages blocks) :
    List.Forall₂ (IsDigestLine hex) messages
      (List.zipWith digestLine messages (blocks.map blockDigest)) := by
  induction h with
  | nil => exact .nil
  | cons hb _ ih => exact .cons (isDigestLine_of_block hb) ih

/-- The lines are the same on every unit that can be used. -/
theorem exists_digestLines (h : ∀ m ∈ messages, Admitted hex m) :
    ∃ lines, List.Forall₂ (IsDigestLine hex) messages lines ∧
      ∀ (f : Features) (backend : Option Kind), (∀ k ∈ backend, k.isSupported f) →
        messageLines f messages hex backend = .ok lines := by
  obtain ⟨blocks, hmap⟩ := exists_blocks_iff.mpr h
  refine ⟨_, forall₂_digestLine (forall₂_blocks hmap), fun f backend hk => ?_⟩
  have hsupported : (backend.getD (Kind.best f)).isSupported f := by
    cases backend with
    | none => exact Kind.best_isSupported f
    | some k => exact hk k rfl
  rw [messageLines, hmap]
  change ((digestsWith f (backend.getD (Kind.best f)) blocks).mapError _ >>= _) = _
  rw [digestsWith_eq_ok hsupported]
  rfl

/-- The failure is that of the first message with a fault, whatever the messages are hashed on. -/
theorem exists_first_fault (h : ¬ ∀ m ∈ messages, Admitted hex m) :
    ∃ before m after e, messages = before ++ m :: after ∧ (∀ x ∈ before, Admitted hex x) ∧
      ¬ Admitted hex m ∧ FaultOf hex m e ∧
      ∀ (f : Features) (backend : Option Kind),
        messageLines f messages hex backend = .error e := by
  cases hmap : messages.mapM (messageBlock hex) with
  | ok blocks => exact absurd (exists_blocks_iff.mp ⟨blocks, hmap⟩) h
  | error e =>
    obtain ⟨before, m, after, hsplit, hbefore, hm⟩ := exists_first_error hmap
    refine ⟨before, m, after, e, hsplit, fun x hx => exists_messageBlock_iff.mp (hbefore x hx),
      fun hadmitted => ?_, faultOf_of_error hm, fun f backend => ?_⟩
    · obtain ⟨b, hb⟩ := exists_messageBlock_iff.mpr hadmitted
      cases hm.symm.trans hb
    · rw [messageLines, hmap]
      rfl

end Messages

/-! ### The command line -/

/-- Without a bound on their number, all words after two dashes are operands. -/
theorem foldlM_operands {g : Grammar} (hg : g.operandMax = none) (words : List String)
    (s : Settings) :
    words.foldlM (Reader.step g) { settings := s, literal := true } = .ok
      { settings := { s with operands := s.operands ++ words }, literal := true } := by
  induction words generalizing s with
  | nil =>
    rw [List.append_nil]
    rfl
  | cons word words ih =>
    have hstep : Reader.step g { settings := s, literal := true } word = .ok
        { settings := { s with operands := s.operands ++ [word] }, literal := true } := by
      simp only [Reader.step, Reader.operand, hg]
      rfl
    rw [List.foldlM_cons, hstep]
    refine (ih { s with operands := s.operands ++ [word] }).trans ?_
    rw [List.append_assoc]
    rfl

/-- The options with which messages are hashed. -/
def digestOptions (hex : Bool) (backend : Option Kind) : List String :=
  (if hex then ["--hex"] else []) ++ backend.elim [] fun k => ["--backend", k.name]

/-- A command line with which messages are hashed. -/
def digestWords (hex : Bool) (backend : Option Kind) (messages : List String) : List String :=
  "sha256" :: digestOptions hex backend ++ "--" :: messages

theorem readOptions (hex : Bool) (backend : Option Kind) :
    ∃ s : Settings, s.verbose = false ∧ s.operands = [] ∧ s.hex = hex ∧ s.backend = backend ∧
      (digestOptions hex backend ++ ["--"]).foldlM (Reader.step Verb.sha256.grammar) {}
        = .ok { settings := s, literal := true } := by
  cases hex <;> cases backend with
  | none => exact ⟨_, rfl, rfl, rfl, rfl, rfl⟩
  | some k => cases k <;> exact ⟨_, rfl, rfl, rfl, rfl, rfl⟩

theorem readVerb_of_ok {v : Verb} {word : String} {rest : List String} {s : Settings} {c : Command}
    (verbose : Bool) (hname : Verb.ofName? word = some v) (hread : readWords v.grammar rest = .ok s)
    (hcommand : v.command s = .ok c) :
    readVerb verbose word rest = .ok ⟨verbose || s.verbose, c⟩ := by
  rw [readVerb, hname]
  dsimp only
  rw [hread]
  change ((v.command s).mapError _ >>= _) = _
  rw [hcommand]
  rfl

/-- Every list of messages can be asked for, in either form and on every choice of a unit. -/
theorem request_digestWords {messages : List String} (h : messages ≠ []) (hex : Bool)
    (backend : Option Kind) : request (digestWords hex backend messages)
      = .ok ⟨false, .sha256 messages hex backend⟩ := by
  obtain ⟨s, hverbose, hoperands, hhex, hbackend, hread⟩ := readOptions hex backend
  have hwords : readWords Verb.sha256.grammar (digestOptions hex backend ++ "--" :: messages)
      = .ok { s with operands := messages } := by
    rw [readWords, List.append_cons, List.foldlM_append, hread]
    change (messages.foldlM _ _ >>= _) = _
    rw [foldlM_operands rfl, hoperands]
    rfl
  have hcommand : Verb.sha256.command { s with operands := messages }
      = .ok (.sha256 messages hex backend) := by
    rw [Verb.command, if_neg h, hhex, hbackend]
  have hverb : readVerb false "sha256" _ = _ := readVerb_of_ok false rfl hwords hcommand
  rw [hverbose] at hverb
  exact hverb

section Run

variable {f : Features} {words : List String} {r : Request} (h : request words = .ok r)
include h

theorem run_of_lines {lines : List String} (hlines : r.command.lines f = .ok lines) :
    (run f words).exit = 0 ∧ (run f words).output = String.join (lines.map (· ++ "\n")) ∧
      (run f words).report = "" := by
  rw [run, h]
  dsimp only
  rw [hlines]
  exact ⟨rfl, rfl, rfl⟩

theorem run_of_failure {e : Failure} (he : r.command.lines f = .error e) :
    (run f words).exit = 1 ∧ (run f words).output = "" ∧ (run f words).report = e.report := by
  rw [run, h]
  dsimp only
  rw [he]
  exact ⟨rfl, rfl, rfl⟩

end Run

/-- Every list of messages can be asked for.  If every message stands for at most 55 bytes, the
command prints a line for each in order, the digest that the standard gives for its bytes and the
message, each line with a line feed behind it, and the lines are the same on every unit that can be
used.  Else it prints nothing, and the failure is about the first message that has no bytes or too
many, and its report starts with a line that names that message. -/
theorem message_lines_exact (hex : Bool) (messages : List String) :
    (messages ≠ [] → ∀ backend, request (digestWords hex backend messages)
      = .ok ⟨false, .sha256 messages hex backend⟩) ∧
    ((∀ m ∈ messages, Admitted hex m) → ∃ lines, List.Forall₂ (IsDigestLine hex) messages lines ∧
      ∀ (f : Features) (backend : Option Kind), (∀ k ∈ backend, k.isSupported f) →
        messageLines f messages hex backend = .ok lines ∧
        ∀ words verbose, request words = .ok ⟨verbose, .sha256 messages hex backend⟩ →
          (run f words).exit = 0 ∧ (run f words).output = String.join (lines.map (· ++ "\n")) ∧
            (run f words).report = "") ∧
    ((¬ ∀ m ∈ messages, Admitted hex m) → ∃ before m after e, messages = before ++ m :: after ∧
      (∀ x ∈ before, Admitted hex x) ∧ ¬ Admitted hex m ∧ FaultOf hex m e ∧
      (e.message = "Not valid hex: " ++ m ∨ e.message = "Message longer than 55 bytes: " ++ m) ∧
      (∃ cause, e.report = "Error: " ++ e.message ++ "\n" ++ cause) ∧
      ∀ (f : Features) (backend : Option Kind), messageLines f messages hex backend = .error e ∧
        ∀ words verbose, request words = .ok ⟨verbose, .sha256 messages hex backend⟩ →
          (run f words).exit = 1 ∧ (run f words).output = "" ∧
            (run f words).report = e.report) := by
  refine ⟨fun h backend => request_digestWords h hex backend, fun h => ?_, fun h => ?_⟩
  · obtain ⟨lines, hlines, hprinted⟩ := exists_digestLines h
    refine ⟨lines, hlines, fun f backend hk => ?_⟩
    have hok := hprinted f backend hk
    exact ⟨hok, fun words verbose hwords => run_of_lines hwords hok⟩
  · obtain ⟨before, m, after, e, hsplit, hbefore, hno, hfault, hfailed⟩ := exists_first_fault h
    refine ⟨before, m, after, e, hsplit, hbefore, hno, hfault, hfault.message_eq, ⟨_, rfl⟩,
      fun f backend => ⟨hfailed f backend, fun words verbose hwords => ?_⟩⟩
    exact run_of_failure hwords (hfailed f backend)

/-- Texts on two wide units, the longer one of 55 bytes; one byte more, with texts around it; and
digits, of which the second message has one too few. -/
theorem message_lines_exact_longest :
    let longest := String.ofList (List.replicate 55 'x')
    let longer := String.ofList (List.replicate 56 'x')
    let f : Features := .ofList [.sse2, .avx2]
    (∀ m ∈ ["abc", longest], Admitted false m) ∧ (∀ k ∈ some Kind.sse2, k.isSupported f) ∧
      (∃ lines, List.Forall₂ (IsDigestLine false) ["abc", longest] lines ∧
        (run f (digestWords false none ["abc", longest])).output
          = String.join (lines.map (· ++ "\n")) ∧
        (run f (digestWords false (some .sse2) ["abc", longest])).output
          = String.join (lines.map (· ++ "\n"))) ∧
      (¬ ∀ m ∈ ["abc", longer, "abc"], Admitted false m) ∧
      (run f (digestWords false none ["abc", longer, "abc"])).exit = 1 ∧
      (run f (digestWords false none ["abc", longer, "abc"])).output = "" ∧
      (¬ ∀ m ∈ ["00", "0"], Admitted true m) ∧
      ∃ before m after, ["00", "0"] = before ++ m :: after ∧ ¬ Admitted true m ∧
        ∃ e cause, FaultOf true m e ∧
          (run f (digestWords true none ["00", "0"])).report = e.report ∧
          e.report = "Error: " ++ e.message ++ "\n" ++ cause := by
  intro longest longer f
  have hlongest : Admitted false longest := ⟨_, rfl, by decide⟩
  have hlonger : ¬ Admitted false longer := by
    rintro ⟨bytes, rfl, hsize⟩
    revert hsize
    decide
  have hodd : ¬ Admitted true "0" := by
    rintro ⟨bytes, htext, -⟩
    have hlength := Hex.Spells.length_eq htext
    simp at hlength
    omega
  have htexts : ∀ m ∈ ["abc", longest], Admitted false m := by
    simp only [List.forall_mem_cons]
    exact ⟨⟨_, rfl, by decide⟩, hlongest, nofun⟩
  have hlong : ¬ ∀ m ∈ ["abc", longer, "abc"], Admitted false m :=
    fun h => hlonger (h longer (List.mem_cons_of_mem _ List.mem_cons_self))
  have hdigits : ¬ ∀ m ∈ ["00", "0"], Admitted true m :=
    fun h => hodd (h "0" (List.mem_cons_of_mem _ List.mem_cons_self))
  have hsse2 : ∀ k ∈ some Kind.sse2, k.isSupported f := by
    intro k hk
    cases hk
    decide
  obtain ⟨hask, hprint, -⟩ := message_lines_exact false ["abc", longest]
  obtain ⟨haskLong, -, hfailLong⟩ := message_lines_exact false ["abc", longer, "abc"]
  obtain ⟨haskDigits, -, hfailDigits⟩ := message_lines_exact true ["00", "0"]
  obtain ⟨lines, hlines, hruns⟩ := hprint htexts
  obtain ⟨_, _, _, _, -, -, -, -, -, -, hrunLong⟩ := hfailLong hlong
  obtain ⟨before, m, after, e, hsplit, -, hno, hfault, -, ⟨cause, hreport⟩, hrunDigits⟩ :=
    hfailDigits hdigits
  have hauto := (hruns f none nofun).2 _ _ (hask (by decide) none)
  have hnamed := (hruns f (some .sse2) hsse2).2 _ _ (hask (by decide) (some .sse2))
  have hlongRun := (hrunLong f none).2 _ _ (haskLong (by decide) none)
  have hdigitsRun := (hrunDigits f none).2 _ _ (haskDigits (by decide) none)
  exact ⟨htexts, hsse2, ⟨lines, hlines, hauto.2.1, hnamed.2.1⟩, hlong, hlongRun.1, hlongRun.2.1,
    hdigits, before, m, after, hsplit, hno, e, cause, hfault, hdigitsRun.2.2, hreport⟩

end ProofOfWork.CommandLine
