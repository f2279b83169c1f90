/-!
# ProofOfWork.Proofs.Traversal — steps and lists through functions that may fail

A step after another has a result if both have one.  A traversal has a result if every member has
one, and then the results are those of the members in order; one failing member fails the whole, and
the first such is what it fails with.  Steps on a state may stop with the state half changed.
-/

namespace ProofOfWork

variable {α β ε : Type} {f : α → Except ε β}

theorem bind_eq_ok_iff {x : Except ε α} {b : β} :
    x >>= f = .ok b ↔ ∃ a, x = .ok a ∧ f a = .ok b := by
  cases x with
  | error e => exact ⟨nofun, nofun⟩
  | ok a => exact ⟨fun h => ⟨a, rfl, h⟩, fun ⟨_, ha, h⟩ => by cases ha; exact h⟩

theorem map_eq_ok_iff {g : α → β} {x : Except ε α} {b : β} :
    x.map g = .ok b ↔ ∃ a, x = .ok a ∧ g a = b := by
  cases x with
  | error e => exact ⟨nofun, nofun⟩
  | ok a => exact ⟨fun h => ⟨a, rfl, Except.ok.inj h⟩, fun ⟨_, ha, h⟩ => by cases ha; rw [← h]; rfl⟩

theorem mapError_eq_ok_iff {δ : Type} {g : ε → δ} {x : Except ε α} {a : α} :
    x.mapError g = .ok a ↔ x = .ok a := by
  cases x with
  | error e => exact ⟨nofun, nofun⟩
  | ok a' => exact ⟨fun h => by cases h; rfl, fun h => by cases h; rfl⟩

theorem mapM_eq_ok_iff {l : List α} {bs : List β} :
    l.mapM f = .ok bs ↔ l.map f = bs.map .ok := by
  induction l generalizing bs with
  | nil =>
    refine ⟨fun h => ?_, fun h => ?_⟩
    · cases h
      rfl
    · rw [List.map_eq_nil_iff.mp h.symm]
      rfl
  | cons a l ih =>
    rw [List.mapM_cons, List.map_cons]
    refine ⟨fun h => ?_, fun h => ?_⟩
    · cases ha : f a with
      | error e =>
        rw [ha] at h
        cases h
      | ok b =>
        cases hl : l.mapM f with
        | error e =>
          rw [ha, hl] at h
          cases h
        | ok rest =>
          rw [ha, hl] at h
          cases h
          rw [ih.mp hl, List.map_cons]
    · obtain ⟨b, rest, rfl, hb, hrest⟩ := List.map_eq_cons_iff.mp h.symm
      rw [← hb, ih.mpr hrest.symm]
      rfl

theorem mapM_eq_ok {g : α → β} {l : List α} (h : ∀ a ∈ l, f a = .ok (g a)) :
    l.mapM f = .ok (l.map g) := by
  rw [mapM_eq_ok_iff, List.map_map]
  exact List.map_congr_left h

theorem mapM_eq_error_iff {l : List α} :
    (∃ e, l.mapM f = .error e) ↔ ∃ a ∈ l, ∃ e, f a = .error e := by
  induction l with
  | nil => exact ⟨nofun, nofun⟩
  | cons a l ih =>
    simp only [List.mem_cons, exists_eq_or_imp, ← ih, List.mapM_cons]
    cases f a with
    | error e => exact ⟨fun _ => .inl ⟨e, rfl⟩, fun _ => ⟨e, rfl⟩⟩
    | ok b =>
      cases l.mapM f with
      | error e => exact ⟨fun _ => .inr ⟨e, rfl⟩, fun _ => ⟨e, rfl⟩⟩
      | ok bs => exact ⟨nofun, fun h => h.elim nofun nofun⟩

theorem exists_mapM_eq_ok_iff {l : List α} :
    (∃ bs, l.mapM f = .ok bs) ↔ ∀ a ∈ l, ∃ b, f a = .ok b := by
  constructor
  · rintro ⟨bs, hbs⟩ a ha
    cases hfa : f a with
    | ok b => exact ⟨b, rfl⟩
    | error e =>
      obtain ⟨e', he'⟩ := mapM_eq_error_iff.mpr ⟨a, ha, e, hfa⟩
      cases hbs.symm.trans he'
  · intro h
    cases hmap : l.mapM f with
    | ok bs => exact ⟨bs, rfl⟩
    | error e =>
      obtain ⟨a, ha, e', he'⟩ := mapM_eq_error_iff.mp ⟨e, hmap⟩
      obtain ⟨b, hb⟩ := h a ha
      cases he'.symm.trans hb

/-- The failure of a traversal is that of the first member that fails. -/
theorem exists_first_error {l : List α} {e : ε} (h : l.mapM f = .error e) :
    ∃ before a after, l = before ++ a :: after ∧ (∀ x ∈ before, ∃ b, f x = .ok b) ∧
      f a = .error e := by
  induction l with
  | nil => cases h
  | cons x l ih =>
    rw [List.mapM_cons] at h
    cases hx : f x with
    | error e' =>
      rw [hx] at h
      cases h
      exact ⟨[], x, l, rfl, nofun, hx⟩
    | ok b =>
      cases hl : l.mapM f with
      | error e' =>
        rw [hx, hl] at h
        cases h
        obtain ⟨before, a, after, rfl, hbefore, ha⟩ := ih hl
        exact ⟨x :: before, a, after, rfl, List.forall_mem_cons.mpr ⟨⟨b, hx⟩, hbefore⟩, ha⟩
      | ok bs =>
        rw [hx, hl] at h
        cases h

/-! ### Steps on a state -/

section InPlace

variable {σ : Type} {m : EStateM ε σ α} {s s' : σ}

theorem run_bind_of_ok {g : α → EStateM ε σ β} {a : α} (h : m.run s = .ok a s') :
    (m >>= g).run s = (g a).run s' := by
  simp only [EStateM.run] at h
  simp only [EStateM.run, bind, EStateM.bind, h]

theorem run_bind_of_error {g : α → EStateM ε σ β} {e : ε} (h : m.run s = .error e s') :
    (m >>= g).run s = .error e s' := by
  simp only [EStateM.run] at h
  simp only [EStateM.run, bind, EStateM.bind, h]

/-- The end of a run that, where it stops, has left the state as it was. -/
def allOrNothing (s : σ) : Except ε (α × σ) → EStateM.Result ε σ α
  | .ok (a, s') => .ok a s'
  | .error e => .error e s

theorem run_adaptExcept {ε' : Type} (g : ε → ε') {x : Except ε (α × σ)}
    (h : m.run s = allOrNothing s x) :
    (EStateM.adaptExcept g m).run s = allOrNothing s (x.mapError g) := by
  simp only [EStateM.run] at h
  simp only [EStateM.run, EStateM.adaptExcept, h]
  cases x <;> rfl

end InPlace

end ProofOfWork
