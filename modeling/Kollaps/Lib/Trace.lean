import Kollaps.Lib.Act

/-!
# Runs of a system that acts

A system takes one step after the other, and what its steps do goes into one log. `Each` is a
statement about every entry of a log and what came before it.
-/

namespace Kollaps

open Run

namespace Act

variable {σ ε : Type} {ι : Type*} {step : σ → ι → Act ε σ} {s₀ s s' : σ} {log : List ε}

/-- The states that a system reaches from `s₀`, each with the log of its run. -/
inductive Trace (step : σ → ι → Act ε σ) (s₀ : σ) : List ε → σ → Prop
  | start : Trace step s₀ [] s₀
  | step {log : List ε} {s s' : σ} (i : ι) (h : Trace step s₀ log s)
      (hs : (step s i).result = .ok s') : Trace step s₀ (log ++ (step s i).log) s'

/-- What holds at the start and is kept by each step holds of every run. -/
theorem Trace.inv (I : List ε → σ → Prop) (hstart : I [] s₀)
    (hstep : ∀ log s i s', Trace step s₀ log s → I log s → (step s i).result = .ok s' →
      I (log ++ (step s i).log) s')
    (h : Trace step s₀ log s) : I log s := by
  induction h with
  | start => exact hstart
  | step i h hs ih => exact hstep _ _ i _ h ih hs

theorem Trace.of_foldlM {is : List ι} (h : Trace step s₀ log s) (hs : (is.foldlM step s).result = .ok s') :
    Trace step s₀ (log ++ (is.foldlM step s).log) s' := by
  induction is generalizing log s with
  | nil =>
    cases hs
    show Trace step s₀ (log ++ []) _
    rwa [List.append_nil]
  | cons i is ih =>
    rw [List.foldlM_cons] at hs ⊢
    obtain ⟨s₁, hs₁, hs, hlog⟩ := of_bind_eq_ok hs
    rw [hlog, ← List.append_assoc]
    exact ih (h.step i hs₁) hs

/-- The same with the steps that were taken. -/
inductive History (step : σ → ι → Act ε σ) (s₀ : σ) : List ι → List ε → σ → Prop
  | start : History step s₀ [] [] s₀
  | step {is : List ι} {log : List ε} {s s' : σ} (i : ι) (h : History step s₀ is log s)
      (hs : (step s i).result = .ok s') : History step s₀ (is ++ [i]) (log ++ (step s i).log) s'

theorem History.trace {is : List ι} (h : History step s₀ is log s) : Trace step s₀ log s := by
  induction h with
  | start => exact .start
  | step i _ hs ih => exact ih.step i hs

theorem History.inv {is : List ι} (I : List ι → List ε → σ → Prop) (hstart : I [] [] s₀)
    (hstep : ∀ is log s i s', I is log s → (step s i).result = .ok s' →
      I (is ++ [i]) (log ++ (step s i).log) s')
    (h : History step s₀ is log s) : I is log s := by
  induction h with
  | start => exact hstart
  | step i _ hs ih => exact hstep _ _ _ i _ ih hs

theorem History.of_foldlM {before is : List ι} (h : History step s₀ before log s)
    (hs : (is.foldlM step s).result = .ok s') :
    History step s₀ (before ++ is) (log ++ (is.foldlM step s).log) s' := by
  induction is generalizing before log s with
  | nil =>
    cases hs
    show History step s₀ (before ++ []) (log ++ []) _
    rwa [List.append_nil, List.append_nil]
  | cons i is ih =>
    rw [List.foldlM_cons] at hs ⊢
    obtain ⟨s₁, hs₁, hs, hlog⟩ := of_bind_eq_ok hs
    have hrest := ih (h.step i hs₁) hs
    rw [List.append_assoc] at hrest
    rw [hlog, ← List.append_assoc]
    exact hrest

/-- The runs whose steps all meet a condition in the state that they start from. -/
inductive Guarded (step : σ → ι → Act ε σ) (ok : σ → ι → Prop) (s₀ : σ) : List ε → σ → Prop
  | start : Guarded step ok s₀ [] s₀
  | step {log : List ε} {s s' : σ} (i : ι) (h : Guarded step ok s₀ log s) (hok : ok s i)
      (hs : (step s i).result = .ok s') : Guarded step ok s₀ (log ++ (step s i).log) s'

variable {ok : σ → ι → Prop}

theorem Guarded.inv (I : List ε → σ → Prop) (hstart : I [] s₀)
    (hstep : ∀ log s i s', Guarded step ok s₀ log s → I log s → ok s i → (step s i).result = .ok s' →
      I (log ++ (step s i).log) s')
    (h : Guarded step ok s₀ log s) : I log s := by
  induction h with
  | start => exact hstart
  | step i h hok hs ih => exact hstep _ _ i _ h ih hok hs

/-- The run of a list of steps, which faults where the condition fails. -/
def guardedRun (step : σ → ι → Act ε σ) (ok : σ → ι → Bool) (s : σ) (is : List ι) : Act ε σ :=
  is.foldlM (fun s i => if ok s i then step s i else liftM (.error .assertion : Run σ)) s

theorem Guarded.of_run {ok : σ → ι → Bool} {is : List ι} (h : Guarded step (ok · · = true) s₀ log s)
    (hs : (guardedRun step ok s is).result = .ok s') :
    Guarded step (ok · · = true) s₀ (log ++ (guardedRun step ok s is).log) s' := by
  unfold guardedRun at hs ⊢
  induction is generalizing log s with
  | nil =>
    cases hs
    show Guarded step _ s₀ (log ++ []) _
    rwa [List.append_nil]
  | cons i is ih =>
    rw [List.foldlM_cons] at hs ⊢
    obtain ⟨s₁, hs₁, hs, hlog⟩ := of_bind_eq_ok hs
    rw [hlog, ← List.append_assoc]
    refine ih ?_ hs
    by_cases hok : ok s i = true
    · rw [if_pos hok] at hs₁ ⊢
      exact h.step i hok hs₁
    · rw [if_neg hok] at hs₁
      cases hs₁

/-- Every entry of the log stands in the relation `P` with the log before it. -/
def Each (P : List ε → ε → Prop) (log : List ε) : Prop :=
  ∀ pre e post, log = pre ++ e :: post → P pre e

variable {P : List ε → ε → Prop}

theorem Each.nil : Each P [] := by
  intro pre e post h
  simp at h

theorem each_append {new : List ε} :
    Each P (log ++ new) ↔ Each P log ∧ Each (fun pre e => P (log ++ pre) e) new := by
  constructor
  · intro h
    exact ⟨fun pre e post he => h pre e (post ++ new) (by simp [he]),
      fun pre e post he => h (log ++ pre) e post (by simp [he])⟩
  · rintro ⟨hlog, hnew⟩ pre e post h
    rcases List.append_eq_append_iff.mp h with ⟨mid, rfl, hpost⟩ | ⟨mid, hlog', hmid⟩
    · exact hnew mid e post hpost
    · cases mid with
      | nil =>
        rw [List.append_nil] at hlog'
        subst hlog'
        simpa using hnew [] e post (by simpa using hmid.symm)
      | cons x mid =>
        obtain ⟨rfl, -⟩ := List.cons.inj hmid
        exact hlog pre e mid hlog'

theorem each_singleton {e : ε} : Each P [e] ↔ P [] e := by
  constructor
  · exact fun h => h [] e [] rfl
  · intro h pre e' post he
    cases pre with
    | nil =>
      cases he
      exact h
    | cons x pre => simp at he

theorem each_cons {e : ε} {rest : List ε} :
    Each P (e :: rest) ↔ P [] e ∧ Each (fun pre e' => P (e :: pre) e') rest := by
  have h : Each P ([e] ++ rest) ↔ _ := each_append
  rw [each_singleton] at h
  exact h

theorem each_snoc {e : ε} : Each P (log ++ [e]) ↔ Each P log ∧ P log e := by
  rw [each_append, each_singleton, List.append_nil]

/-! ## Streaks -/

/-- The last `k` entries satisfy `P`. -/
def Streak {α : Type*} (P : α → Prop) (k : Nat) (l : List α) : Prop :=
  ∃ before last, l = before ++ last ∧ last.length = k ∧ ∀ a ∈ last, P a

section

variable {α : Type*} {Q : α → Prop} {j k : Nat} {l : List α}

theorem Streak.zero : Streak Q 0 l := ⟨l, [], by simp, rfl, by simp⟩

theorem Streak.snoc (h : Streak Q k l) {a : α} (ha : Q a) : Streak Q (k + 1) (l ++ [a]) := by
  obtain ⟨before, last, rfl, rfl, hlast⟩ := h
  refine ⟨before, last ++ [a], by simp, by simp, fun b hb => ?_⟩
  rcases List.mem_append.mp hb with hb | hb
  · exact hlast b hb
  · exact List.mem_singleton.mp hb ▸ ha

theorem Streak.mono (h : Streak Q k l) (hjk : j ≤ k) : Streak Q j l := by
  obtain ⟨before, last, rfl, rfl, hlast⟩ := h
  refine ⟨before ++ last.take (last.length - j), last.drop (last.length - j), by simp, ?_, fun a ha =>
    hlast a (List.mem_of_mem_drop ha)⟩
  rw [List.length_drop]
  omega

theorem streak_iff : Streak Q k l ↔ k ≤ l.length ∧ ∀ a ∈ l.drop (l.length - k), Q a := by
  constructor
  · rintro ⟨before, last, rfl, rfl, hlast⟩
    refine ⟨by simp, fun a ha => hlast a ?_⟩
    simpa using ha
  · rintro ⟨hk, hlast⟩
    refine ⟨l.take (l.length - k), l.drop (l.length - k), (List.take_append_drop _ l).symm, ?_, hlast⟩
    rw [List.length_drop]
    omega

theorem Streak.last (h : Streak Q k l) (hk : 0 < k) : ∃ a ∈ l.getLast?, Q a := by
  obtain ⟨before, last, rfl, rfl, hlast⟩ := h
  have hne : last ≠ [] := List.length_pos_iff.mp hk
  refine ⟨last.getLast hne, ?_, hlast _ (List.getLast_mem hne)⟩
  rw [List.getLast?_append_of_ne_nil before hne, List.getLast?_eq_some_getLast hne]
  rfl

end

end Act

end Kollaps
