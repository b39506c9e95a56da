import ExactSphere.Certify

/-!
# Computations that answer truthfully

`Answers rounded m a` says that the computation `m` has the answer `a` and no fault. A computation
in rounded arithmetic may instead stay undecided; one in exact arithmetic may not. The formulas of
the library are put together from such computations by the rules of this file. `Settled` says no
more than that there is an answer.
-/

namespace ExactSphere.Certify

/-- A certain answer is handed on to the next step. -/
theorem run_bind_of_some {A B : Type} {m : Certify A} {f : A → Certify B} {a : A}
    (h : m.run = .ok (some a)) : (m >>= f).run = (f a).run := by
  rw [OptionT.run_bind, h]
  rfl

/-- The computation answers `a`; if it is `rounded`, it may instead stay undecided. -/
def Answers {A : Type} (rounded : Bool) (m : Certify A) (a : A) : Prop :=
  m.run = .ok (some a) ∨ rounded = true ∧ m.run = .ok none

namespace Answers

variable {A B : Type} {rounded : Bool} {m n : Certify A} {a : A} {b : B}

theorem pure (a : A) : Answers rounded (pure a) a := .inl rfl

theorem undecided (a : A) : Answers true undecided a := .inr ⟨rfl, rfl⟩

theorem run_eq (h : Answers false m a) : m.run = .ok (some a) := by
  rcases h with h | ⟨h, _⟩
  · exact h
  · cases h

theorem eq_of_run {c : A} (h : Answers rounded m a) (hrun : m.run = .ok (some c)) : c = a := by
  rcases h with h | ⟨_, h⟩
  · rw [h] at hrun
    cases hrun
    rfl
  · rw [h] at hrun
    cases hrun

theorem bind {f : A → Certify B} (hm : Answers rounded m a) (hf : Answers rounded (f a) b) :
    Answers rounded (m >>= f) b := by
  rcases hm with hm | ⟨hrounded, hm⟩
  · have hrun := run_bind_of_some (f := f) hm
    rcases hf with hf | ⟨hrounded, hf⟩
    · exact .inl (hrun.trans hf)
    · exact .inr ⟨hrounded, hrun.trans hf⟩
  · exact .inr ⟨hrounded, by rw [OptionT.run_bind, hm]; rfl⟩

theorem map (h : Answers rounded m a) (f : A → B) : Answers rounded (f <$> m) (f a) := by
  rcases h with h | ⟨hrounded, h⟩
  · exact .inl (by rw [OptionT.run_map, h]; rfl)
  · exact .inr ⟨hrounded, by rw [OptionT.run_map, h]; rfl⟩

/-- The second way counts only if the first one is undecided, which exact arithmetic never is. -/
theorem orElse (hm : Answers rounded m a) (hn : rounded = true → Answers true n a) :
    Answers rounded (m <|> n) a := by
  rcases hm with hm | ⟨hrounded, hm⟩
  · exact .inl (by rw [OptionT.run_orElse, hm]; rfl)
  · have hrun : (m <|> n).run = n.run := by rw [OptionT.run_orElse, hm]; rfl
    rcases hn hrounded with hn | ⟨_, hn⟩
    · exact .inl (hrun.trans hn)
    · exact .inr ⟨hrounded, hrun.trans hn⟩

/-- A formula that goes on without an undecided result has to be right in both cases. -/
theorem attempt_bind {f : Option A → Certify B} (hm : Answers rounded m a)
    (hsome : Answers rounded (f (some a)) b) (hnone : rounded = true → Answers true (f none) b) :
    Answers rounded (m.attempt >>= f) b := by
  rcases hm with hm | ⟨rfl, hm⟩
  · exact bind (.inl (run_attempt_of_ok hm)) hsome
  · exact bind (.inl (run_attempt_of_ok hm)) (hnone rfl)

theorem exists_run (h : Answers rounded m a) :
    ∃ answer, m.run = .ok answer ∧ (answer = some a ∨ rounded = true ∧ answer = none) := by
  rcases h with h | ⟨hrounded, h⟩
  · exact ⟨_, h, .inl rfl⟩
  · exact ⟨_, h, .inr ⟨hrounded, rfl⟩⟩

theorem weaken (h : Answers rounded m a) : Answers true m a := by
  rcases h with h | ⟨_, h⟩
  · exact .inl h
  · exact .inr ⟨rfl, h⟩

/-- A part that may be missing leaves the computation undecided. -/
theorem ofOption_bind {o : Option A} {f : A → Certify B}
    (h : ∀ c, o = some c → Answers true (f c) b) : Answers true (ofOption o >>= f) b := by
  cases o with
  | none => exact .inr ⟨rfl, rfl⟩
  | some c => exact bind (.pure c) (h c rfl)

/-- A bookkeeping step that has no fault. -/
theorem lift_bind {x : Except Fault A} {f : A → Certify B} (hx : x = .ok a)
    (hf : Answers rounded (f a) b) : Answers rounded ((liftM x : Certify A) >>= f) b := by
  subst hx
  exact bind (.inl rfl) hf

end Answers

/-- A formula that goes on with whatever a step answers. -/
theorem run_attempt_bind {A B : Type} {m : Certify A} {f : Option A → Certify B} {o : Option A}
    (h : m.run = .ok o) : (m.attempt >>= f).run = (f o).run :=
  run_bind_of_some (run_attempt_of_ok h)

/-- An answer after a step comes from an answer of the step. -/
theorem exists_of_run_bind {A B : Type} {m : Certify A} {f : A → Certify B} {b : B}
    (h : (m >>= f).run = .ok (some b)) : ∃ a, m.run = .ok (some a) ∧ (f a).run = .ok (some b) := by
  rw [OptionT.run_bind] at h
  cases hm : m.run with
  | error cause =>
    rw [hm] at h
    cases h
  | ok answer =>
    rw [hm] at h
    cases answer with
    | none => cases h
    | some a => exact ⟨a, rfl, h⟩

/-! ## Computations that settle a question -/

/-- The computation has a certain answer. -/
def Settled {A : Type} (m : Certify A) : Prop := ∃ a, m.run = .ok (some a)

section Settled

variable {A B : Type} {m : Certify A} {a : A} {f : A → Certify B}

theorem not_settled_undecided : ¬Settled (undecided : Certify A) := by
  rintro ⟨a, h⟩
  cases h

/-- An exact step leaves the question to the next one. -/
theorem settled_bind_iff (h : Answers false m a) : Settled (m >>= f) ↔ Settled (f a) := by
  unfold Settled
  rw [run_bind_of_some h.run_eq]

/-- A missing part is the end of the computation. -/
theorem settled_ofOption_bind_iff {o : Option A} :
    Settled (ofOption o >>= f) ↔ ∃ c, o = some c ∧ Settled (f c) := by
  cases o with
  | none =>
    refine iff_of_false not_settled_undecided ?_
    rintro ⟨c, hc, -⟩
    cases hc
  | some c =>
    refine (settled_bind_iff (.pure c)).trans ?_
    simp only [Option.some.injEq, exists_eq_left']

end Settled

end ExactSphere.Certify
