import Kollaps.Lib.Run

/-!
# Programs that check their input

A program that reads something checks one thing after the other, and stops at the first one that is
wrong. Some checks give an `Err` then, and some panic. What a program does on an input can so be read
off the list of its checks.
-/

namespace Kollaps

open Run

variable {α β σ : Type}

/-- A check, by what is wrong where it stops the program. -/
inductive Check where
  | reports (wrong : Prop)
  | panics (wrong : Prop)

namespace Check

def Wrong : Check → Prop
  | reports wrong => wrong
  | panics wrong => wrong

def Reported : Check → Prop
  | reports wrong => wrong
  | panics _ => False

def Fatal : Check → Prop
  | reports _ => False
  | panics wrong => wrong

theorem wrong_iff (c : Check) : c.Wrong ↔ c.Fatal ∨ c.Reported := by
  cases c <;> simp [Wrong, Fatal, Reported]

/-- Whatever would panic comes after something that is reported. -/
def Spared (checks : List Check) : Prop :=
  ∀ before c after, checks = before ++ c :: after → c.Fatal → ∃ d ∈ before, d.Reported

theorem spared_nil : Spared [] := by
  intro before c after h
  simp at h

theorem spared_cons {c : Check} {checks : List Check} :
    Spared (c :: checks) ↔ ¬ c.Fatal ∧ (c.Reported ∨ Spared checks) := by
  constructor
  · intro h
    refine ⟨fun hfatal => ?_, ?_⟩
    · obtain ⟨d, hd, -⟩ := h [] c checks rfl hfatal
      simp at hd
    · by_cases hc : c.Reported
      · exact Or.inl hc
      · refine Or.inr fun before d after hchecks hd => ?_
        obtain ⟨e, he, hreported⟩ := h (c :: before) d after (by rw [hchecks, List.cons_append]) hd
        rcases List.mem_cons.mp he with rfl | he
        · exact absurd hreported hc
        · exact ⟨e, he, hreported⟩
  · rintro ⟨hc, hrest⟩ before d after hchecks hd
    rcases List.cons_eq_append_iff.mp hchecks with ⟨rfl, hcons⟩ | ⟨before, rfl, htail⟩
    · obtain ⟨rfl, -⟩ := List.cons.inj hcons
      exact absurd hd hc
    · rcases hrest with hreported | hspared
      · exact ⟨c, List.mem_cons_self, hreported⟩
      · obtain ⟨e, he, hreported⟩ := hspared before d after htail hd
        exact ⟨e, List.mem_cons_of_mem _ he, hreported⟩

theorem spared_append {xs ys : List Check} :
    Spared (xs ++ ys) ↔ Spared xs ∧ ((∃ c ∈ xs, c.Reported) ∨ Spared ys) := by
  induction xs with
  | nil => simp [spared_nil]
  | cons c xs ih =>
    rw [List.cons_append, spared_cons, spared_cons, ih, List.exists_mem_cons_iff, or_assoc, and_assoc,
      ← or_and_left]

/-- Among checks that do not panic first, a wrong one means that one is reported. -/
theorem Spared.exists_reported {checks : List Check} (h : Spared checks) (hwrong : ∃ c ∈ checks, c.Wrong) :
    ∃ c ∈ checks, c.Reported := by
  obtain ⟨c, hc, hwrong⟩ := hwrong
  rcases (wrong_iff c).mp hwrong with hfatal | hreported
  · obtain ⟨before, after, hsplit⟩ := List.append_of_mem hc
    obtain ⟨d, hd, hreported⟩ := h before c after hsplit hfatal
    exact ⟨d, by rw [hsplit]; exact List.mem_append_left _ hd, hreported⟩
  · exact ⟨c, hc, hreported⟩

end Check

open Check

/-- A program goes through some checks, and does nothing else that can stop it. -/
structure Judged (m : Run α) (checks : List Check) : Prop where
  noPanic : NoPanic m ↔ Spared checks
  returns : (∃ a, m = .ok a) ↔ ∀ c ∈ checks, ¬ c.Wrong

namespace Judged

variable {m : Run α} {checks : List Check}

theorem ok (a : α) : Judged (.ok a : Run α) [] :=
  ⟨iff_of_true (noPanic_ok a) spared_nil, iff_of_true ⟨a, rfl⟩ (by simp)⟩

theorem met {c : Check} (hc : ¬ c.Wrong) (h : Judged m checks) : Judged m (c :: checks) := by
  rw [wrong_iff, not_or] at hc
  refine ⟨?_, ?_⟩
  · rw [h.noPanic, spared_cons]
    exact ⟨fun hspared => ⟨hc.1, Or.inr hspared⟩, fun hcons => hcons.2.resolve_left hc.2⟩
  · rw [h.returns, List.forall_mem_cons, wrong_iff, not_or]
    exact ⟨fun hall => ⟨hc, hall⟩, fun hall => hall.2⟩

theorem reports {wrong : Prop} (h : wrong) (message : String) :
    Judged (.error (.err message) : Run α) (.reports wrong :: checks) := by
  refine ⟨iff_of_true (noPanic_error.mpr ⟨message, rfl⟩) ?_, iff_of_false (by simp) ?_⟩
  · exact spared_cons.mpr ⟨fun hfatal => hfatal, Or.inl h⟩
  · intro hall
    exact hall _ List.mem_cons_self h

theorem panics {wrong : Prop} {e : Fault} (h : wrong) (he : ∀ message, e ≠ .err message) :
    Judged (.error e : Run α) (.panics wrong :: checks) := by
  refine ⟨iff_of_false ?_ fun hspared => (spared_cons.mp hspared).1 h, iff_of_false (by simp) ?_⟩
  · rw [noPanic_error]
    rintro ⟨message, rfl⟩
    exact he message rfl
  · intro hall
    exact hall _ List.mem_cons_self h

theorem unwrap (o : Option α) : Judged (Run.unwrap o) [.panics (o = none)] := by
  cases o with
  | none => exact panics rfl (by simp)
  | some a => exact met (by simp [Wrong]) (ok a)

theorem guard {p : Prop} [Decidable p] {message : String} (h : ¬ p → Judged m checks) :
    Judged (if p then .error (.err message) else m) (.reports p :: checks) := by
  split <;> rename_i hp
  · exact reports hp message
  · exact met hp (h hp)

theorem bind {f : α → Run β} {later : List Check} (h : Judged m checks)
    (hf : ∀ a, m = .ok a → Judged (f a) later) : Judged (m >>= f) (checks ++ later) := by
  cases m with
  | ok a =>
    have hmet := h.returns.mp ⟨a, rfl⟩
    have hreported : ¬ ∃ c ∈ checks, c.Reported := by
      rintro ⟨c, hc, hreported⟩
      exact hmet c hc ((wrong_iff c).mpr (Or.inr hreported))
    rw [bind_ok]
    refine ⟨?_, ?_⟩
    · rw [(hf a rfl).noPanic, spared_append, or_iff_right hreported]
      exact (and_iff_right (h.noPanic.mp (noPanic_ok a))).symm
    · rw [(hf a rfl).returns, List.forall_mem_append]
      exact (and_iff_right hmet).symm
  | error e =>
    have hwrong : ∃ c ∈ checks, c.Wrong := by
      by_contra hnone
      obtain ⟨a, ha⟩ := h.returns.mpr fun c hc hwrong => hnone ⟨c, hc, hwrong⟩
      cases ha
    rw [bind_error]
    refine ⟨?_, iff_of_false (by simp) ?_⟩
    · rw [noPanic_error, ← noPanic_error (α := α), h.noPanic, spared_append]
      exact ⟨fun hspared => ⟨hspared, Or.inl (hspared.exists_reported hwrong)⟩, fun hspared => hspared.1⟩
    · intro hall
      obtain ⟨c, hc, hwrong⟩ := hwrong
      exact hall c (List.mem_append_left _ hc) hwrong

theorem bind_free {f : α → Run β} {later : List Check} (h : Judged m [])
    (hf : ∀ a, m = .ok a → Judged (f a) later) : Judged (m >>= f) later := h.bind hf

theorem map {f : α → β} (h : Judged m checks) : Judged (f <$> m) checks := by
  have hbind := h.bind (f := fun a => .ok (f a)) fun a _ => ok (f a)
  rw [List.append_nil] at hbind
  exact hbind

theorem foldlM {f : σ → α → Run σ} {xs : List α} {s : σ} (item : α → List Check) (I : σ → Prop) (hs : I s)
    (hstep : ∀ x ∈ xs, ∀ s, I s → Judged (f s x) (item x))
    (hnext : ∀ x ∈ xs, ∀ s s', I s → f s x = .ok s' → I s') : Judged (xs.foldlM f s) (xs.flatMap item) := by
  induction xs generalizing s with
  | nil => exact ok s
  | cons x xs ih =>
    rw [List.foldlM_cons, List.flatMap_cons]
    refine (hstep x List.mem_cons_self s hs).bind fun s' hs' => ?_
    exact ih (hnext x List.mem_cons_self s s' hs hs') (fun y hy => hstep y (List.mem_cons_of_mem _ hy))
      fun y hy => hnext y (List.mem_cons_of_mem _ hy)

end Judged

end Kollaps
