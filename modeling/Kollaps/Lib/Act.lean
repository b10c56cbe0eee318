import Kollaps.Lib.Run

/-!
# Programs that act

A program that talks to others is an `Act`: a log of what it has done so far, and a run that
returns a value or faults. What was done before a fault stays in the log.
-/

namespace Kollaps

open Run

structure Act (ε α : Type) where
  log : List ε
  result : Run α

namespace Act

variable {ε α β σ : Type}

instance : Monad (Act ε) where
  pure a := ⟨[], .ok a⟩
  bind m f := match m.result with
    | .ok a => ⟨m.log ++ (f a).log, (f a).result⟩
    | .error e => ⟨m.log, .error e⟩

/-- A run that does nothing to the outside. -/
instance : MonadLift Run (Act ε) := ⟨fun m => ⟨[], m⟩⟩

def emit (e : ε) : Act ε Unit := ⟨[e], .ok ()⟩

@[simp] theorem log_pure (a : α) : (pure a : Act ε α).log = [] := rfl
@[simp] theorem result_pure (a : α) : (pure a : Act ε α).result = .ok a := rfl
@[simp] theorem log_emit (e : ε) : (emit e).log = [e] := rfl
@[simp] theorem result_emit (e : ε) : (emit e).result = .ok () := rfl
@[simp] theorem log_lift (m : Run α) : (liftM m : Act ε α).log = [] := rfl
@[simp] theorem result_lift (m : Run α) : (liftM m : Act ε α).result = m := rfl

theorem bind_of_ok {m : Act ε α} {f : α → Act ε β} {a : α} (h : m.result = .ok a) :
    m >>= f = ⟨m.log ++ (f a).log, (f a).result⟩ := by
  show (match m.result with
    | .ok a => (⟨m.log ++ (f a).log, (f a).result⟩ : Act ε β)
    | .error e => ⟨m.log, .error e⟩) = _
  rw [h]

theorem bind_of_error {m : Act ε α} {f : α → Act ε β} {e : Fault} (h : m.result = .error e) :
    m >>= f = ⟨m.log, .error e⟩ := by
  show (match m.result with
    | .ok a => (⟨m.log ++ (f a).log, (f a).result⟩ : Act ε β)
    | .error e => ⟨m.log, .error e⟩) = _
  rw [h]

theorem log_emit_bind (e : ε) (f : Unit → Act ε β) : (emit e >>= f).log = e :: (f ()).log := by
  rw [bind_of_ok (result_emit e)]
  rfl

theorem of_bind_eq_ok {m : Act ε α} {f : α → Act ε β} {b : β} (h : (m >>= f).result = .ok b) :
    ∃ a, m.result = .ok a ∧ (f a).result = .ok b ∧ (m >>= f).log = m.log ++ (f a).log := by
  cases hm : m.result with
  | error e =>
    rw [bind_of_error hm] at h
    cases h
  | ok a =>
    rw [bind_of_ok hm] at h ⊢
    exact ⟨a, rfl, h, rfl⟩

theorem forall_log_bind {P : ε → Prop} {m : Act ε α} {f : α → Act ε β} (hm : ∀ e ∈ m.log, P e)
    (hf : ∀ a, m.result = .ok a → ∀ e ∈ (f a).log, P e) : ∀ e ∈ (m >>= f).log, P e := by
  cases h : m.result with
  | error e =>
    rw [bind_of_error h]
    exact hm
  | ok a =>
    rw [bind_of_ok h]
    exact fun e he => (List.mem_append.mp he).elim (hm e) (hf a h e)

theorem forall_log_foldlM {P : ε → Prop} {f : σ → α → Act ε σ} {xs : List α}
    (hf : ∀ s x, ∀ e ∈ (f s x).log, P e) (s : σ) : ∀ e ∈ (xs.foldlM f s).log, P e := by
  induction xs generalizing s with
  | nil => exact nofun
  | cons x xs ih => exact forall_log_bind (hf s x) fun s' _ => ih s'

/-! ## What a program returns -/

theorem returns_bind {m : Act ε α} {f : α → Act ε β} {P : α → Prop} {Q : β → Prop}
    (hm : Returns m.result P) (hf : ∀ a, P a → Returns (f a).result Q) :
    Returns (m >>= f).result Q := by
  obtain ⟨a, ha, hP⟩ := hm
  rw [bind_of_ok ha]
  exact hf a hP

/-- A fold keeps an invariant on the items done so far. -/
theorem returns_foldlM {f : σ → α → Act ε σ} {xs : List α} {s : σ} (I : List α → σ → Prop)
    (hs : I [] s) (hstep : ∀ pre x post s, xs = pre ++ x :: post → I pre s →
      Returns (f s x).result (I (pre ++ [x]))) :
    Returns (xs.foldlM f s).result (I xs) := by
  suffices h : ∀ post pre s, xs = pre ++ post → I pre s → Returns (post.foldlM f s).result (I xs) from
    h xs [] s rfl hs
  intro post
  induction post with
  | nil =>
    intro pre s hx hI
    rw [List.append_nil] at hx
    exact ⟨s, rfl, hx ▸ hI⟩
  | cons x post ih =>
    intro pre s hx hI
    rw [List.foldlM_cons]
    exact returns_bind (hstep pre x post s hx hI) fun s' hs' => ih (pre ++ [x]) s' (by simp [hx]) hs'

theorem returns_foldlM_log {f : σ → α → Act ε σ} {xs : List α} {s : σ} (I : List α → List ε → σ → Prop)
    (hs : I [] [] s) (hstep : ∀ pre x post log s, xs = pre ++ x :: post → I pre log s →
      Returns (f s x).result (I (pre ++ [x]) (log ++ (f s x).log))) :
    Returns (xs.foldlM f s).result (I xs (xs.foldlM f s).log) := by
  suffices h : ∀ post pre log s, xs = pre ++ post → I pre log s →
      Returns (post.foldlM f s).result (I xs (log ++ (post.foldlM f s).log)) from h xs [] [] s rfl hs
  intro post
  induction post with
  | nil =>
    intro pre log s hx hI
    rw [List.append_nil] at hx
    refine ⟨s, rfl, ?_⟩
    show I xs (log ++ []) s
    rwa [List.append_nil, hx]
  | cons x post ih =>
    intro pre log s hx hI
    obtain ⟨s₁, hs₁, hI₁⟩ := hstep pre x post log s hx hI
    rw [List.foldlM_cons, bind_of_ok hs₁]
    dsimp only
    rw [← List.append_assoc]
    exact ih (pre ++ [x]) _ s₁ (by simp [hx]) hI₁

theorem foldlM_ok_inv {f : σ → α → Act ε σ} {xs : List α} {s s' : σ} (I : List α → σ → Prop)
    (hs : I [] s) (hstep : ∀ pre x post s s', xs = pre ++ x :: post → I pre s →
      (f s x).result = .ok s' → I (pre ++ [x]) s') (h : (xs.foldlM f s).result = .ok s') : I xs s' := by
  suffices hpost : ∀ post pre s, xs = pre ++ post → I pre s → (post.foldlM f s).result = .ok s' →
      I xs s' from hpost xs [] s rfl hs h
  intro post
  induction post with
  | nil =>
    intro pre s hx hI h
    rw [List.append_nil] at hx
    cases h
    exact hx ▸ hI
  | cons x post ih =>
    intro pre s hx hI h
    rw [List.foldlM_cons] at h
    obtain ⟨s₁, h₁, h, -⟩ := of_bind_eq_ok h
    exact ih (pre ++ [x]) s₁ (by simp [hx]) (hstep pre x post s s₁ hx hI h₁) h

/-- The same for an invariant that also looks at what was done. -/
theorem foldlM_ok_log {f : σ → α → Act ε σ} {xs : List α} {s s' : σ} (I : List α → List ε → σ → Prop)
    (hs : I [] [] s) (hstep : ∀ pre x post log s s', xs = pre ++ x :: post → I pre log s →
      (f s x).result = .ok s' → I (pre ++ [x]) (log ++ (f s x).log) s')
    (h : (xs.foldlM f s).result = .ok s') : I xs (xs.foldlM f s).log s' := by
  suffices hpost : ∀ post pre log s, xs = pre ++ post → I pre log s →
      (post.foldlM f s).result = .ok s' → I xs (log ++ (post.foldlM f s).log) s' from
    hpost xs [] [] s rfl hs h
  intro post
  induction post with
  | nil =>
    intro pre log s hx hI h
    rw [List.append_nil] at hx
    cases h
    show I xs (log ++ []) _
    rwa [List.append_nil, hx]
  | cons x post ih =>
    intro pre log s hx hI h
    rw [List.foldlM_cons] at h ⊢
    obtain ⟨s₁, h₁, h, hlog⟩ := of_bind_eq_ok h
    rw [hlog, ← List.append_assoc]
    exact ih (pre ++ [x]) _ s₁ (by simp [hx]) (hstep pre x post log s s₁ hx hI h₁) h

theorem foldlM_snoc {f : σ → α → Act ε σ} {xs : List α} {s s' : σ}
    (h : (xs.foldlM f s).result = .ok s') (x : α) :
    (xs ++ [x]).foldlM f s = ⟨(xs.foldlM f s).log ++ (f s' x).log, (f s' x).result⟩ := by
  induction xs generalizing s with
  | nil =>
    cases h
    show (f s' x >>= fun a => Pure.pure a) = _
    cases hx : (f s' x).result with
    | error e => exact bind_of_error hx
    | ok a =>
      rw [bind_of_ok hx, log_pure, result_pure, List.append_nil]
      rfl
  | cons y xs ih =>
    rw [List.foldlM_cons] at h
    obtain ⟨s₁, hs₁, h, hlog⟩ := of_bind_eq_ok h
    rw [List.cons_append, List.foldlM_cons, List.foldlM_cons, hlog, bind_of_ok hs₁, ih h, List.append_assoc]

theorem returns_forM {f : α → Act ε PUnit} {xs : List α}
    (hstep : ∀ x ∈ xs, Returns (f x).result fun _ => True) :
    Returns (xs.forM f).result fun _ => True := by
  induction xs with
  | nil => exact ⟨_, rfl, trivial⟩
  | cons x xs ih =>
    show Returns (f x >>= fun _ => xs.forM f).result _
    exact returns_bind (hstep x List.mem_cons_self) fun _ _ =>
      ih fun x hx => hstep x (List.mem_cons_of_mem _ hx)

theorem forM_emit (xs : List ε) : (xs.forM emit : Act ε PUnit) = ⟨xs, .ok ()⟩ := by
  induction xs with
  | nil => rfl
  | cons x xs ih =>
    show (emit x >>= fun _ => xs.forM emit) = _
    rw [bind_of_ok (result_emit x), ih]
    rfl

theorem log_forM_emit (f : α → ε) (xs : List α) : (xs.forM fun x => emit (f x)).log = xs.map f := by
  induction xs with
  | nil => rfl
  | cons x xs ih =>
    show (emit (f x) >>= fun _ => xs.forM fun x => emit (f x)).log = _
    rw [bind_of_ok (result_emit (f x)), ih]
    simp

theorem ok_of_forM {f : α → Act ε PUnit} {xs : List α} {u : PUnit} (h : (xs.forM f).result = .ok u)
    {x : α} (hx : x ∈ xs) : ∃ v, (f x).result = .ok v := by
  induction xs generalizing u with
  | nil => simp at hx
  | cons y xs ih =>
    obtain ⟨v, hv, h, -⟩ := of_bind_eq_ok (m := f y) (f := fun _ => xs.forM f) h
    rcases List.mem_cons.mp hx with rfl | hx
    · exact ⟨v, hv⟩
    · exact ih h hx

theorem mem_log_forM {f : α → Act ε PUnit} {xs : List α} {u : PUnit} (h : (xs.forM f).result = .ok u)
    {x : α} (hx : x ∈ xs) {e : ε} (he : e ∈ (f x).log) : e ∈ (xs.forM f).log := by
  induction xs generalizing u with
  | nil => simp at hx
  | cons y xs ih =>
    obtain ⟨v, -, h, hlog⟩ := of_bind_eq_ok (m := f y) (f := fun _ => xs.forM f) h
    show e ∈ (f y >>= fun _ => xs.forM f).log
    rw [hlog, List.mem_append]
    rcases List.mem_cons.mp hx with rfl | hx
    · exact Or.inl he
    · exact Or.inr (ih h hx)

/-! ## What a program may do -/

/-- Everything that is done satisfies `P`, and so does what is returned. -/
structure Does (m : Act ε α) (P : ε → Prop) (Q : α → Prop) : Prop where
  log : ∀ e ∈ m.log, P e
  result : ∀ a, m.result = .ok a → Q a

theorem Does.pure {P : ε → Prop} {Q : α → Prop} {a : α} (h : Q a) : Does (pure a : Act ε α) P Q :=
  ⟨by simp, by rintro _ ⟨⟩; exact h⟩

theorem Does.emit {P : ε → Prop} {Q : Unit → Prop} {e : ε} (h : P e) (hQ : Q ()) :
    Does (emit e) P Q :=
  ⟨by simpa using h, fun _ _ => hQ⟩

theorem Does.lift {P : ε → Prop} {Q : α → Prop} {m : Run α} (h : ∀ a, m = .ok a → Q a) :
    Does (liftM m : Act ε α) P Q :=
  ⟨by simp, h⟩

theorem Does.mono {m : Act ε α} {P P' : ε → Prop} {Q Q' : α → Prop} (hm : Does m P Q)
    (hP : ∀ e, P e → P' e) (hQ : ∀ a, Q a → Q' a) : Does m P' Q' :=
  ⟨fun e he => hP e (hm.log e he), fun a ha => hQ a (hm.result a ha)⟩

theorem Does.bind {m : Act ε α} {f : α → Act ε β} {P : ε → Prop} {Q : α → Prop} {R : β → Prop}
    (hm : Does m P Q) (hf : ∀ a, Q a → Does (f a) P R) : Does (m >>= f) P R := by
  cases hr : m.result with
  | error e =>
    rw [bind_of_error hr]
    exact ⟨hm.log, by rintro _ ⟨⟩⟩
  | ok a =>
    have hf := hf a (hm.result a hr)
    rw [bind_of_ok hr]
    refine ⟨fun e he => ?_, hf.result⟩
    exact (List.mem_append.mp he).elim (hm.log e) (hf.log e)

theorem Does.bind_lift {m : Run α} {f : α → Act ε β} {P : ε → Prop} {R : β → Prop}
    (hf : ∀ a, m = .ok a → Does (f a) P R) : Does (liftM m >>= f) P R :=
  (Does.lift fun _ h => h).bind hf

theorem Does.foldlM {f : σ → α → Act ε σ} {xs : List α} {P : ε → Prop} {Q : σ → Prop}
    (hstep : ∀ s, ∀ x ∈ xs, Q s → Does (f s x) P Q) {s : σ} (hs : Q s) :
    Does (xs.foldlM f s) P Q := by
  induction xs generalizing s with
  | nil => exact Does.pure hs
  | cons x xs ih =>
    rw [List.foldlM_cons]
    exact (hstep s x List.mem_cons_self hs).bind fun s' hs' =>
      ih (fun s x hx => hstep s x (List.mem_cons_of_mem _ hx)) hs'

theorem Does.forM {f : α → Act ε PUnit} {xs : List α} {P : ε → Prop}
    (hstep : ∀ x ∈ xs, Does (f x) P fun _ => True) : Does (xs.forM f) P fun _ => True := by
  induction xs with
  | nil => exact Does.pure trivial
  | cons x xs ih =>
    show Does (f x >>= fun _ => xs.forM f) P _
    exact (hstep x List.mem_cons_self).bind fun _ _ =>
      ih fun x hx => hstep x (List.mem_cons_of_mem _ hx)

/-- Everything that is done satisfies `P`, but for the last thing before it returns. -/
def EndsWith (m : Act ε α) (P L : ε → Prop) : Prop :=
  (∃ e, m.result = .error e ∧ ∀ x ∈ m.log, P x) ∨
    ∃ a pre last, m.result = .ok a ∧ m.log = pre ++ [last] ∧ (∀ x ∈ pre, P x) ∧ L last

theorem EndsWith.emit {P L : ε → Prop} {e : ε} {a : α} (h : L e) :
    EndsWith (emit e >>= fun _ => Pure.pure a : Act ε α) P L :=
  Or.inr ⟨a, [], e, rfl, rfl, by simp, h⟩

theorem EndsWith.bind {m : Act ε α} {f : α → Act ε β} {P L : ε → Prop} {Q : α → Prop}
    (hm : Does m P Q) (hf : ∀ a, Q a → EndsWith (f a) P L) : EndsWith (m >>= f) P L := by
  cases hr : m.result with
  | error e =>
    rw [bind_of_error hr]
    exact Or.inl ⟨e, rfl, hm.log⟩
  | ok a =>
    rw [bind_of_ok hr]
    rcases hf a (hm.result a hr) with ⟨e, he, hP⟩ | ⟨b, pre, last, hb, hlog, hP, hL⟩
    · exact Or.inl ⟨e, he, fun x hx => (List.mem_append.mp hx).elim (hm.log x) (hP x)⟩
    · refine Or.inr ⟨b, m.log ++ pre, last, hb, by simp [hlog], fun x hx => ?_, hL⟩
      exact (List.mem_append.mp hx).elim (hm.log x) (hP x)

end Act

end Kollaps
