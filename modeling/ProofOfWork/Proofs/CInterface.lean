import ProofOfWork.CInterface
import ProofOfWork.Proofs.Cryptonight.Accelerated
import ProofOfWork.Proofs.Batch

/-!
# ProofOfWork.Proofs.CInterface — what a caller of the C functions can rely on

A caller owns a memory, and a call is given the address of its output buffer in it, or none.  What a
call can do is said once (`perform_cases`): a pointer is null, or the data is refused, or the work
has a result, and only the last writes.  Hence a call in a memory answers exactly (`run_exact`), and
by induction on the calls so does every one of a session (`session_exact`).
-/

namespace ProofOfWork.CInterface

open Cryptonight Sha256 Processor

/-! ### Digests in a buffer -/

/-- Digests one after the other. -/
def digestBytes (ds : List Digest) : Bytes := ds.toArray.flatMap Vector.toArray

theorem digestBytes_cons (d : Digest) (ds : List Digest) :
    digestBytes (d :: ds) = d.toArray ++ digestBytes ds := by
  simp [digestBytes]

theorem size_digestBytes (ds : List Digest) : (digestBytes ds).size = 32 * ds.length := by
  induction ds with
  | nil => rfl
  | cons d ds ih =>
    rw [digestBytes_cons, Array.size_append, Vector.size_toArray, ih, List.length_cons]
    omega

/-- A buffer with no more than their room holds the digests and nothing else. -/
theorem store_eq {ds : List Digest} {out : Bytes} (h : out.size = 32 * ds.length) :
    store ds out = digestBytes ds := by
  have hsize := size_digestBytes ds
  have hstore : store ds out = Array.ofFn fun i : Fin out.size =>
    if hi : i.val < (digestBytes ds).size then (digestBytes ds)[i.val] else out[i] := rfl
  rw [hstore]
  apply Array.ext
  · rw [Array.size_ofFn, h, hsize]
  · intro i _ hi
    rw [Array.getElem_ofFn]
    exact dif_pos hi

/-! ### Requests -/

/-- What is asked for; the pointer to the data may be null. -/
inductive Request
  | standard (blob : Option Bytes)
  | fast (blob : Option Bytes)
  | blocks (data : Option (List Block))

namespace Request

/-- The bytes for which the output pointer must be valid. -/
def room : Request → Nat
  | standard _ | fast _ => 32
  | blocks data => 32 * (data.getD []).length

def IsNull : Request → Prop
  | standard blob | fast blob => blob = none
  | blocks data => data = none

def IsRefused : Request → Prop
  | standard blob => ∃ b ∈ blob, ∃ e, checkStandard b = .error e
  | fast blob => ∃ b ∈ blob, ∃ e, checkFast b = .error e
  | blocks _ => False

/-- The work behind the checks comes to an end with these digests. -/
def Yields (f : Features) : Request → List Digest → Prop
  | standard blob, ds => ∃ b ∈ blob, ∃ d, hashStandard b = .ok d ∧ ds = [d]
  | fast blob, ds => ∃ b ∈ blob, ∃ d, hashFast b = .ok d ∧ hashStandard b = .ok d ∧ ds = [d]
  | blocks data, ds => ∃ bs ∈ data, tryDigests f bs = .ok ds ∧ ds = bs.map blockDigest

def perform (f : Features) : Request → Option Bytes → Status × Option Bytes
  | standard blob => cryptonightStandard blob
  | fast blob => cryptonightFast f blob
  | blocks data => sha256Blocks f data

theorem length_of_yields {f : Features} {r : Request} {ds : List Digest} (h : r.Yields f ds) :
    32 * ds.length = r.room := by
  cases r with
  | standard blob =>
    obtain ⟨b, -, d, -, rfl⟩ := h
    rfl
  | fast blob =>
    obtain ⟨b, -, d, -, -, rfl⟩ := h
    rfl
  | blocks data =>
    obtain ⟨bs, hbs, -, rfl⟩ := h
    cases hbs
    rw [room, Option.getD_some, List.length_map]

end Request

/-! ### What a request can do -/

/-- All that a hash behind a check can do, if it comes to an end on whatever the check accepts. -/
theorem hashInto_cases {check : Bytes → Except BlobError Unit} {hash : Bytes → Option Digest}
    {P : Bytes → Digest → Prop} (htotal : ∀ b, check b = .ok () → ∃ d, hash b = some d ∧ P b d)
    (blob out : Option Bytes) :
    (blob = none ∨ out = none) ∧ hashInto check hash blob out = (.absent, out) ∨
    (∃ o, out = some o ∧ blob ≠ none ∧ (∃ b ∈ blob, ∃ e, check b = .error e) ∧
      hashInto check hash blob out = (.refused, some o)) ∨
    ∃ o d, out = some o ∧ blob ≠ none ∧ (¬ ∃ b ∈ blob, ∃ e, check b = .error e) ∧
      (∃ b ∈ blob, P b d) ∧ hashInto check hash blob out = (.success, some (store [d] o)) := by
  cases blob with
  | none => exact .inl ⟨.inl rfl, rfl⟩
  | some b =>
    cases out with
    | none => exact .inl ⟨.inr rfl, rfl⟩
    | some o =>
      right
      cases hcheck : check b with
      | error e => exact .inl ⟨o, rfl, nofun, ⟨b, rfl, e, hcheck⟩, by rw [hashInto, hcheck]⟩
      | ok u =>
        obtain ⟨d, hd, hp⟩ := htotal b hcheck
        refine .inr ⟨o, d, rfl, nofun, ?_, ⟨b, rfl, hp⟩, ?_⟩
        · rintro ⟨_, ⟨⟩, e, he⟩
          rw [hcheck] at he
          cases he
        · rw [hashInto, hcheck]
          simp only [hd]

section Available

variable {f : Features} (hf : ∀ x ∈ acceleratedNeeds, f.has x)

theorem hashStandard_toOption {b : Bytes} (h : checkStandard b = .ok ()) :
    ∃ d, (hashStandard b).toOption = some d ∧ hashStandard b = .ok d := by
  obtain ⟨d, hd⟩ := hashStandard_of_accepted h
  exact ⟨d, by rw [hd]; rfl, hd⟩

include hf

theorem hashFast_toOption {b : Bytes} (h : checkFast b = .ok ()) :
    ∃ d, (match f.require acceleratedNeeds with
      | .ok () => (hashFast b).toOption
      | .error _ => none) = some d ∧ hashFast b = .ok d ∧ hashStandard b = .ok d := by
  have hsame := hashFast_eq_hashStandard h
  have haccepted := checkStandard_eq_ok_iff.mpr ⟨_, standardVariant_of_checkFast h⟩
  obtain ⟨d, hd⟩ := hashStandard_of_accepted haccepted
  refine ⟨d, ?_, hsame.trans hd, hd⟩
  rw [Features.require_eq_ok hf, hsame, hd]
  rfl

/-- All that a request can do.  Where the data is there and not refused, its work has a result. -/
theorem perform_cases (r : Request) (out : Option Bytes) :
    (r.IsNull ∨ out = none) ∧ r.perform f out = (.absent, out) ∨
    (∃ o, out = some o ∧ ¬ r.IsNull ∧ r.IsRefused ∧ r.perform f out = (.refused, some o)) ∨
    ∃ o ds, out = some o ∧ ¬ r.IsNull ∧ ¬ r.IsRefused ∧ r.Yields f ds ∧
      r.perform f out = (.success, some (store ds o)) := by
  cases r with
  | standard blob =>
    obtain hnull | ⟨o, ho, hsome, hrefused, hr⟩ | ⟨o, d, ho, hsome, hrefused, ⟨b, hb, hd⟩, hr⟩ :=
      hashInto_cases (fun _ => hashStandard_toOption) blob out
    · exact .inl hnull
    · exact .inr (.inl ⟨o, ho, hsome, hrefused, hr⟩)
    · exact .inr (.inr ⟨o, [d], ho, hsome, hrefused, ⟨b, hb, d, hd, rfl⟩, hr⟩)
  | fast blob =>
    obtain hnull | ⟨o, ho, hsome, hrefused, hr⟩ | ⟨o, d, ho, hsome, hrefused, ⟨b, hb, hd, hs⟩, hr⟩ :=
      hashInto_cases (fun _ => hashFast_toOption hf) blob out
    · exact .inl hnull
    · exact .inr (.inl ⟨o, ho, hsome, hrefused, hr⟩)
    · exact .inr (.inr ⟨o, [d], ho, hsome, hrefused, ⟨b, hb, d, hd, hs, rfl⟩, hr⟩)
  | blocks data =>
    cases data with
    | none => exact .inl ⟨.inl rfl, rfl⟩
    | some bs =>
      cases out with
      | none => exact .inl ⟨.inr rfl, rfl⟩
      | some o =>
        have hds := tryDigests_eq_ok f bs
        refine .inr (.inr ⟨o, bs.map blockDigest, rfl, nofun, nofun, ⟨bs, rfl, hds, rfl⟩, ?_⟩)
        rw [Request.perform, sha256Blocks]
        simp only [hds]

end Available

/-! ### Calls in a memory -/

/-- Bytes from an address on, replaced. -/
def write (m : Bytes) (p : Nat) (b : Bytes) : Bytes :=
  m.extract 0 p ++ b ++ m.extract (p + b.size) m.size

theorem size_write {m : Bytes} {p : Nat} {b : Bytes} (h : p + b.size ≤ m.size) :
    (write m p b).size = m.size := by
  simp only [write, Array.size_append, Array.size_extract]
  omega

theorem write_extract {m : Bytes} {p n : Nat} (h : p + n ≤ m.size) :
    write m p (m.extract p (p + n)) = m := by
  have hsize : (m.extract p (p + n)).size = n := by
    rw [Array.size_extract]
    omega
  rw [write, hsize, Array.extract_append_extract, Nat.min_eq_left (Nat.zero_le p),
    Nat.max_eq_right (Nat.le_add_right p n), Array.extract_append_extract,
    Nat.min_eq_left (Nat.zero_le _), Nat.max_eq_right h, Array.extract_size]

/-- A request, and the address of its output buffer, if that pointer is not null. -/
structure Call where
  request : Request
  out : Option Nat

namespace Call

def HasNull (c : Call) : Prop := c.request.IsNull ∨ c.out = none

/-- The output buffer is in a memory of this size. -/
def Fits (c : Call) (size : Nat) : Prop := ∀ p ∈ c.out, p + c.request.room ≤ size

/-- The status of a call, and the memory after it. -/
def run (f : Features) (c : Call) (m : Bytes) : Status × Bytes :=
  match c.out with
  | none => ((c.request.perform f none).1, m)
  | some p =>
    let r := c.request.perform f (some (m.extract p (p + c.request.room)))
    (r.1, write m p (r.2.getD #[]))

end Call

theorem run_cases {f : Features} (hf : ∀ x ∈ acceleratedNeeds, f.has x) {c : Call} {m : Bytes}
    (hfit : c.Fits m.size) :
    c.HasNull ∧ c.run f m = (.absent, m) ∨
    ¬ c.HasNull ∧ c.request.IsRefused ∧ c.run f m = (.refused, m) ∨
    ∃ p ds, c.out = some p ∧ ¬ c.HasNull ∧ ¬ c.request.IsRefused ∧ c.request.Yields f ds ∧
      c.run f m = (.success, write m p (digestBytes ds)) := by
  obtain ⟨r, out⟩ := c
  cases out with
  | none =>
    obtain ⟨-, h⟩ | ⟨o, ho, -⟩ | ⟨o, ds, ho, -⟩ := perform_cases hf r none
    · exact .inl ⟨.inr rfl, by rw [Call.run, h]⟩
    · cases ho
    · cases ho
  | some p =>
    have hroom : p + r.room ≤ m.size := hfit p rfl
    have hself := write_extract hroom
    obtain ⟨hnull | hnull, h⟩ | ⟨o, ho, hnull, hrefused, h⟩ | ⟨o, ds, ho, hnull, hrefused, hds, h⟩ :=
      perform_cases hf r (some (m.extract p (p + r.room)))
    · refine .inl ⟨.inl hnull, ?_⟩
      rw [Call.run]
      simp only [h, Option.getD_some, hself]
    · cases hnull
    · cases ho
      refine .inr (.inl ⟨fun hn => hn.elim hnull nofun, hrefused, ?_⟩)
      rw [Call.run]
      simp only [h, Option.getD_some, hself]
    · cases ho
      have hbuffer : (m.extract p (p + r.room)).size = 32 * ds.length := by
        rw [Request.length_of_yields hds, Array.size_extract]
        omega
      refine .inr (.inr ⟨p, ds, rfl, fun hn => hn.elim hnull nofun, hrefused, hds, ?_⟩)
      rw [Call.run]
      simp only [h, Option.getD_some, store_eq hbuffer]

/-! ### Sessions -/

/-- One call of a session, with the memory before and after it. -/
structure Step where
  call : Call
  before : Bytes
  status : Status
  after : Bytes

/-- One call after the other, each on the memory that the one before has left. -/
def session (f : Features) : List Call → Bytes → List Step
  | [], _ => []
  | c :: cs, m =>
    let r := c.run f m
    ⟨c, m, r.1, r.2⟩ :: session f cs r.2

/-- The status says what happened, and only success has written: the digests into the buffer, and
nothing beside it. -/
structure Step.Exact (f : Features) (s : Step) : Prop where
  absent : s.status.code = -1 ↔ s.call.HasNull
  refused : s.status.code = -3 ↔ ¬ s.call.HasNull ∧ s.call.request.IsRefused
  success : s.status.code = 0 ↔ ¬ s.call.HasNull ∧ ¬ s.call.request.IsRefused
  not_stopped : s.status.code ≠ -2
  unchanged : s.status.code ≠ 0 → s.after = s.before
  written : s.status.code = 0 → ∃ p ds, s.call.out = some p ∧ s.call.request.Yields f ds ∧
    s.after = s.before.extract 0 p ++ digestBytes ds
      ++ s.before.extract (p + s.call.request.room) s.before.size

theorem run_exact {f : Features} (hf : ∀ x ∈ acceleratedNeeds, f.has x) {c : Call} {m : Bytes}
    (hfit : c.Fits m.size) :
    (c.run f m).2.size = m.size ∧ Step.Exact f ⟨c, m, (c.run f m).1, (c.run f m).2⟩ := by
  obtain ⟨hnull, h⟩ | ⟨hnull, hrefused, h⟩ | ⟨p, ds, hp, hnull, hrefused, hds, h⟩ :=
    run_cases hf hfit
  · rw [h]
    exact ⟨rfl, iff_of_true rfl hnull, iff_of_false nofun fun hr => hr.1 hnull,
      iff_of_false nofun fun hr => hr.1 hnull, nofun, fun _ => rfl, nofun⟩
  · rw [h]
    exact ⟨rfl, iff_of_false nofun hnull, iff_of_true rfl ⟨hnull, hrefused⟩,
      iff_of_false nofun fun hr => hr.2 hrefused, nofun, fun _ => rfl, nofun⟩
  · have hroom : (digestBytes ds).size = c.request.room := by
      rw [size_digestBytes, Request.length_of_yields hds]
    rw [h]
    refine ⟨size_write (by rw [hroom]; exact hfit p hp), iff_of_false nofun hnull,
      iff_of_false nofun fun hr => hrefused hr.2, iff_of_true rfl ⟨hnull, hrefused⟩,
      nofun, fun hcode => absurd rfl hcode, fun _ => ⟨p, ds, hp, hds, ?_⟩⟩
    rw [← hroom]
    rfl

theorem session_exact {f : Features} (hf : ∀ x ∈ acceleratedNeeds, f.has x) {calls : List Call}
    {m : Bytes} (hfit : ∀ c ∈ calls, c.Fits m.size) :
    (session f calls m).map Step.call = calls ∧ ∀ s ∈ session f calls m, s.Exact f := by
  induction calls generalizing m with
  | nil => exact ⟨rfl, nofun⟩
  | cons c cs ih =>
    obtain ⟨hc, hcs⟩ := List.forall_mem_cons.mp hfit
    obtain ⟨hsize, hexact⟩ := run_exact hf hc
    obtain ⟨hcalls, hrest⟩ := ih (hsize ▸ hcs)
    refine ⟨?_, List.forall_mem_cons.mpr ⟨hexact, hrest⟩⟩
    rw [session, List.map_cons, hcalls]

/-! ### Names of features -/

/-- The number by which a question for a feature is answered. -/
def answerCode : Except Status Bool → Int
  | .ok has => if has then 1 else 0
  | .error s => s.code

theorem ofName?_name (x : Feature) : Feature.ofName? x.name = some x := by cases x <;> rfl

theorem ofName?_utf8_eq_some_iff {name : Bytes} {x : Feature} :
    (String.fromUTF8? ⟨name⟩).bind Feature.ofName? = some x ↔ name = x.name.toUTF8.data := by
  constructor
  · intro h
    obtain ⟨s, hs, hx⟩ := Option.bind_eq_some_iff.mp h
    have hfound := List.find?_some hx
    have hname : x.name = s := of_decide_eq_true hfound
    unfold String.fromUTF8? at hs
    split at hs
    next =>
      cases hs
      rw [hname]
      rfl
    next => cases hs
  · rintro rfl
    have hutf8 : String.fromUTF8? x.name.toUTF8 = some x.name := dif_pos x.name.isValidUTF8
    exact (congrArg (Option.bind · Feature.ofName?) hutf8).trans (ofName?_name x)

theorem untilZero_append {name : Bytes} (h : 0 ∉ name) (rest : Bytes) :
    untilZero (name ++ #[0] ++ rest) = name := by
  have hkept : ∀ b ∈ name.toList, (b != 0) = true := by
    intro b hb
    rw [bne_iff_ne]
    rintro rfl
    exact h (Array.mem_toList_iff.mp hb)
  apply Array.toList_inj.mp
  rw [untilZero, Array.toList_takeWhile, Array.append_assoc, Array.toList_append,
    List.takeWhile_append_of_pos hkept, Array.toList_append]
  exact List.append_nil _

/-- The answer to the name before the first zero. -/
theorem answerCode_hasFeature (f : Features) {name : Bytes} (h : 0 ∉ name) (rest : Bytes) :
    (∀ x : Feature, name = x.name.toUTF8.data →
      answerCode (hasFeature f (some (name ++ #[0] ++ rest))) = if f.has x then 1 else 0) ∧
    ((∀ x : Feature, name ≠ x.name.toUTF8.data) →
      answerCode (hasFeature f (some (name ++ #[0] ++ rest))) = -3) := by
  rw [hasFeature]
  simp only [untilZero_append h rest]
  refine ⟨fun x hx => ?_, fun hno => ?_⟩
  · rw [ofName?_utf8_eq_some_iff.mpr hx]
    rfl
  · cases hfound : (String.fromUTF8? ⟨name⟩).bind Feature.ofName? with
    | none => rfl
    | some x => exact absurd (ofName?_utf8_eq_some_iff.mp hfound) (hno x)

/-! ### Atomicity -/

/-- Where the accelerated hash can be used, every call of every session answers exactly and writes
all or nothing.  A question for a feature is answered by whether it is there exactly if the bytes
before the first zero are a feature's name, and refused otherwise. -/
theorem calls_atomic_and_exact (f : Features) :
    ((∀ x ∈ acceleratedNeeds, f.has x) → ∀ calls m, (∀ c ∈ calls, c.Fits m.size) →
      (session f calls m).map Step.call = calls ∧ ∀ s ∈ session f calls m, s.Exact f) ∧
    answerCode (hasFeature f none) = -1 ∧
    ∀ name rest : Bytes, 0 ∉ name →
      let code := answerCode (hasFeature f (some (name ++ #[0] ++ rest)))
      (∀ x : Feature, name = x.name.toUTF8.data → code = if f.has x then 1 else 0) ∧
      ((code = 0 ∨ code = 1) ↔ ∃ x : Feature, name = x.name.toUTF8.data) ∧
      (code = -3 ↔ ∀ x : Feature, name ≠ x.name.toUTF8.data) := by
  refine ⟨fun hf calls m => session_exact hf, rfl, fun name rest hzero => ?_⟩
  obtain ⟨hnamed, hunnamed⟩ := answerCode_hasFeature f hzero rest
  intro code
  have hbit (x : Feature) : (if f.has x then (1 : Int) else 0) = 0 ∨
      (if f.has x then (1 : Int) else 0) = 1 := by
    cases f.has x with
    | true => exact .inr rfl
    | false => exact .inl rfl
  by_cases hname : ∃ x : Feature, name = x.name.toUTF8.data
  · obtain ⟨x, hx⟩ := hname
    have hcode : code = if f.has x then 1 else 0 := hnamed x hx
    refine ⟨hnamed, iff_of_true (hcode ▸ hbit x) ⟨x, hx⟩, iff_of_false ?_ fun hno => hno x hx⟩
    rw [hcode]
    have := hbit x
    omega
  · have hno : ∀ x : Feature, name ≠ x.name.toUTF8.data := not_exists.mp hname
    have hcode : code = -3 := hunnamed hno
    refine ⟨hnamed, iff_of_false ?_ hname, iff_of_true hcode hno⟩
    rw [hcode]
    omega

/-- A hash, a refused one into the same bytes, two digests beside them, and two calls with a null
pointer; and a name with bytes behind its zero. -/
theorem calls_atomic_and_exact_mixed :
    let f : Features := .ofList [.sse2, .aes]
    let calls : List Call := [⟨.standard (some #[6]), some 1⟩, ⟨.fast (some #[6]), some 0⟩,
      ⟨.blocks (some [Vector.replicate 64 0, Vector.replicate 64 1]), some 32⟩,
      ⟨.standard none, some 0⟩, ⟨.blocks (some []), none⟩]
    let m : Bytes := Array.replicate 96 0xff
    (∀ x ∈ acceleratedNeeds, f.has x) ∧ (∀ c ∈ calls, c.Fits m.size) ∧
      (session f calls m).map Step.call = calls ∧ (∀ s ∈ session f calls m, s.Exact f) ∧
      0 ∉ "aes".toUTF8.data ∧
      answerCode (hasFeature f (some ("aes".toUTF8.data ++ #[0] ++ #[0xff]))) = 1 := by
  intro f calls m
  have hf : ∀ x ∈ acceleratedNeeds, f.has x := by decide
  have hfit : ∀ c ∈ calls, c.Fits m.size := by
    have hsize : m.size = 96 := Array.size_replicate
    simp only [calls, hsize, List.forall_mem_cons]
    refine ⟨?_, ?_, ?_, ?_, ?_, nofun⟩ <;> rintro p ⟨⟩ <;> decide
  have hzero : 0 ∉ "aes".toUTF8.data := by decide +kernel
  obtain ⟨hsession, -, hname⟩ := calls_atomic_and_exact f
  obtain ⟨hcalls, hexact⟩ := hsession hf calls m hfit
  obtain ⟨haes, -, -⟩ := hname "aes".toUTF8.data #[0xff] hzero
  exact ⟨hf, hfit, hcalls, hexact, hzero, haes .aes rfl⟩

end ProofOfWork.CInterface
