import Mathlib.Data.List.Basic
import Mathlib.Data.Nat.ModEq
import Mathlib.Tactic.Cases

/-!
# Programs that may fault

A Rust function that can panic is a `Run`. `Returns m P` says that `m` comes back,
with a value that satisfies `P`. The rules below take a program apart one bind, one
fold or one loop at a time.
-/

namespace Kollaps

/-- Why a program stops without a value. -/
inductive Fault where
  | unwrap
  | index
  | arith
  | assertion
  | diverge
  /-- `panic!` with a message. -/
  | stop (message : String)
  /-- An `Err` that is passed on to the end of the program. -/
  | err (message : String)
deriving DecidableEq, Repr

abbrev Run (α : Type) := Except Fault α

namespace Run

variable {α β σ : Type}

/-- Total correctness: `m` returns, and its value satisfies `P`. -/
def Returns (m : Run α) (P : α → Prop) : Prop := ∃ a, m = .ok a ∧ P a

@[simp] theorem returns_ok (a : α) (P : α → Prop) : Returns (.ok a : Run α) P ↔ P a := by
  simp [Returns]

@[simp] theorem returns_pure (a : α) (P : α → Prop) : Returns (pure a : Run α) P ↔ P a :=
  returns_ok a P

@[simp] theorem returns_error (e : Fault) (P : α → Prop) : ¬ Returns (.error e : Run α) P := by
  simp [Returns]

@[simp] theorem bind_ok (a : α) (f : α → Run β) : ((.ok a : Run α) >>= f) = f a := rfl

@[simp] theorem bind_error (e : Fault) (f : α → Run β) :
    ((.error e : Run α) >>= f) = .error e := rfl

instance (m : Run α) (P : α → Prop) [DecidablePred P] : Decidable (Returns m P) :=
  match m with
  | .ok a => decidable_of_iff (P a) (returns_ok a P).symm
  | .error e => isFalse (returns_error e P)

theorem Returns.bind {m : Run α} {f : α → Run β} {P : α → Prop} {Q : β → Prop}
    (hm : Returns m P) (hf : ∀ a, P a → Returns (f a) Q) : Returns (m >>= f) Q := by
  obtain ⟨a, rfl, ha⟩ := hm
  exact hf a ha

theorem Returns.mono {m : Run α} {P Q : α → Prop} (hm : Returns m P) (h : ∀ a, P a → Q a) :
    Returns m Q := by
  obtain ⟨a, rfl, ha⟩ := hm
  exact ⟨a, rfl, h a ha⟩

theorem Returns.and {m : Run α} {P Q : α → Prop} (hp : Returns m P) (hq : Returns m Q) :
    Returns m fun a => P a ∧ Q a := by
  obtain ⟨a, rfl, ha⟩ := hp
  exact ⟨a, rfl, ha, (returns_ok a Q).mp hq⟩

theorem Returns.of_eq {m : Run α} {P : α → Prop} {a : α} (hm : Returns m P) (h : m = .ok a) : P a := by
  rw [h] at hm
  exact (returns_ok a P).mp hm

theorem of_bind_eq_ok {m : Run α} {f : α → Run β} {b : β} (h : (m >>= f) = .ok b) :
    ∃ a, m = .ok a ∧ f a = .ok b := by
  cases m with
  | error e => cases h
  | ok a => exact ⟨a, rfl, h⟩

/-! ## Reads that may fault -/

def unwrap : Option α → Run α
  | some a => .ok a
  | none => .error .unwrap

@[simp] theorem unwrap_some (a : α) : unwrap (some a) = .ok a := rfl
@[simp] theorem unwrap_none : unwrap (none : Option α) = .error .unwrap := rfl

theorem unwrap_eq_ok {o : Option α} {a : α} : unwrap o = .ok a ↔ o = some a := by
  cases o <;> simp

def get (xs : List α) (i : Nat) : Run α :=
  match xs[i]? with
  | some a => .ok a
  | none => .error .index

def set (xs : List α) (i : Nat) (a : α) : Run (List α) :=
  if i < xs.length then .ok (xs.set i a) else .error .index

theorem get_eq {xs : List α} {i : Nat} (h : i < xs.length) : get xs i = .ok xs[i] := by
  simp [get, h]

theorem get_eq_ok {xs : List α} {i : Nat} {a : α} : get xs i = .ok a ↔ xs[i]? = some a := by
  unfold get
  cases xs[i]? <;> simp

theorem set_eq {xs : List α} {i : Nat} {a : α} (h : i < xs.length) :
    set xs i a = .ok (xs.set i a) := by
  simp [set, h]

/-! ## Loops -/

/-- A fold keeps an invariant on the items done so far. -/
theorem Returns.foldlM {f : σ → α → Run σ} {l : List α} {s : σ} (I : List α → σ → Prop)
    (hs : I [] s)
    (hstep : ∀ pre x post s, l = pre ++ x :: post → I pre s → Returns (f s x) (I (pre ++ [x]))) :
    Returns (l.foldlM f s) (I l) := by
  suffices h : ∀ post pre s, l = pre ++ post → I pre s → Returns (post.foldlM f s) (I l) from
    h l [] s rfl hs
  intro post
  induction post with
  | nil => intro pre s hx hI; simp_all
  | cons x post ih =>
    intro pre s hx hI
    rw [List.foldlM_cons]
    exact (hstep pre x post s hx hI).bind fun s' hs' => ih (pre ++ [x]) s' (by simp [hx]) hs'

theorem Returns.foldlM_inv {f : σ → α → Run σ} {xs : List α} {s : σ} (I : σ → Prop)
    (hs : I s) (hstep : ∀ x ∈ xs, ∀ s, I s → Returns (f s x) I) : Returns (xs.foldlM f s) I :=
  Returns.foldlM (fun _ => I) hs fun _ x _ s hx hI => hstep x (by simp [hx]) s hI

theorem foldlM_ok_inv {α : Type*} {f : σ → α → Run σ} {xs : List α} {s s' : σ} (I : σ → Prop) (hs : I s)
    (hstep : ∀ x ∈ xs, ∀ s s', I s → f s x = .ok s' → I s') (h : xs.foldlM f s = .ok s') : I s' := by
  induction xs generalizing s with
  | nil => cases h; exact hs
  | cons x xs ih =>
    rw [List.foldlM_cons] at h
    obtain ⟨s₁, h₁, h⟩ := of_bind_eq_ok h
    exact ih (hstep x List.mem_cons_self s s₁ hs h₁)
      (fun y hy => hstep y (List.mem_cons_of_mem _ hy)) h

/-- A fold that returned keeps an invariant on the items done so far. -/
theorem foldlM_ok_done {α : Type*} {f : σ → α → Run σ} {xs : List α} {s s' : σ} (I : List α → σ → Prop)
    (hs : I [] s) (hstep : ∀ pre x post s s', xs = pre ++ x :: post → I pre s →
      f s x = .ok s' → I (pre ++ [x]) s') (h : xs.foldlM f s = .ok s') : I xs s' := by
  suffices hpost : ∀ post pre s, xs = pre ++ post → I pre s → post.foldlM f s = .ok s' → I xs s' from
    hpost xs [] s rfl hs h
  intro post
  induction post with
  | nil =>
    intro pre s hx hI h
    rw [List.append_nil] at hx
    cases h
    exact hx ▸ hI
  | cons x post ih =>
    intro pre s hx hI h
    rw [List.foldlM_cons] at h
    obtain ⟨s₁, h₁, h⟩ := of_bind_eq_ok h
    exact ih (pre ++ [x]) s₁ (by simp [hx]) (hstep pre x post s s₁ hx hI h₁) h

theorem foldlM_ok_reach {α : Type*} {f : σ → α → Run σ} {xs : List α} {s s' : σ} (I : List α → σ → Prop)
    (hs : I [] s) (hstep : ∀ pre x post s₁ s₂, xs = pre ++ x :: post → pre.foldlM f s = .ok s₁ →
      I pre s₁ → f s₁ x = .ok s₂ → I (pre ++ [x]) s₂) (h : xs.foldlM f s = .ok s') : I xs s' := by
  refine (foldlM_ok_done (fun pre s₁ => pre.foldlM f s = .ok s₁ ∧ I pre s₁) ⟨rfl, hs⟩
    (fun pre x post s₁ s₂ hx hI h => ⟨?_, hstep pre x post s₁ s₂ hx hI.1 hI.2 h⟩) h).2
  rw [List.foldlM_append, hI.1, bind_ok, List.foldlM_cons, h]
  rfl

theorem mem_filterAuxM {f : α → Run Bool} {xs acc r : List α} (h : xs.filterAuxM f acc = .ok r) {x : α} :
    x ∈ r ↔ x ∈ acc ∨ (x ∈ xs ∧ f x = .ok true) := by
  induction xs generalizing acc with
  | nil =>
    cases h
    simp
  | cons y xs ih =>
    rw [List.filterAuxM] at h
    obtain ⟨b, hb, h⟩ := of_bind_eq_ok h
    rw [ih h, List.mem_cons]
    by_cases hxy : x = y
    · subst hxy
      cases b <;> simp [hb]
    · cases b <;> simp [hxy]

theorem mem_filterM {f : α → Run Bool} {xs r : List α} (h : xs.filterM f = .ok r) {x : α} :
    x ∈ r ↔ x ∈ xs ∧ f x = .ok true := by
  rw [List.filterM] at h
  obtain ⟨r', hr', h⟩ := of_bind_eq_ok h
  cases h
  rw [List.mem_reverse, mem_filterAuxM hr']
  simp

theorem ok_of_foldlM_ok {f : σ → α → Run σ} {xs : List α} {s s' : σ} (h : xs.foldlM f s = .ok s') :
    ∀ x ∈ xs, ∃ s₁ s₂, f s₁ x = .ok s₂ := by
  induction xs generalizing s with
  | nil => simp
  | cons y xs ih =>
    rw [List.foldlM_cons] at h
    obtain ⟨s₁, h₁, h⟩ := of_bind_eq_ok h
    intro x hx
    rcases List.mem_cons.mp hx with rfl | hx
    · exact ⟨s, s₁, h₁⟩
    · exact ih h x hx

theorem Returns.mapM {f : α → Run β} {P : α → β → Prop} {xs : List α}
    (h : ∀ x ∈ xs, Returns (f x) (P x)) : Returns (xs.mapM f) (List.Forall₂ P xs) := by
  induction xs with
  | nil => exact ⟨[], rfl, .nil⟩
  | cons x xs ih =>
    rw [List.mapM_cons]
    refine (h x List.mem_cons_self).bind fun y hy => ?_
    refine (ih fun x hx => h x (List.mem_cons_of_mem _ hx)).bind fun ys hys => ?_
    exact ⟨y :: ys, rfl, .cons hy hys⟩

theorem of_mapM_eq_ok {f : α → Run β} {xs : List α} {ys : List β} (h : xs.mapM f = .ok ys) :
    List.Forall₂ (fun x y => f x = .ok y) xs ys := by
  induction xs generalizing ys with
  | nil => cases h; exact .nil
  | cons x xs ih =>
    rw [List.mapM_cons] at h
    obtain ⟨y, hy, h⟩ := of_bind_eq_ok h
    obtain ⟨ys', hys, h⟩ := of_bind_eq_ok h
    cases h
    exact .cons hy (ih hys)

theorem filterM_ok {f : α → Run Bool} {p : α → Bool} {xs : List α} (h : ∀ x ∈ xs, f x = .ok (p x)) :
    xs.filterM f = .ok (xs.filter p) := by
  have haux : ∀ (ys acc : List α), (∀ y ∈ ys, f y = .ok (p y)) →
      ys.filterAuxM f acc = .ok ((ys.filter p).reverse ++ acc) := by
    intro ys
    induction ys with
    | nil => exact fun acc _ => rfl
    | cons y ys ih =>
      intro acc hys
      rw [List.filterAuxM, hys y List.mem_cons_self, bind_ok,
        ih _ fun x hx => hys x (List.mem_cons_of_mem _ hx)]
      cases hp : p y <;> simp [hp]
  rw [List.filterM, haux xs [] h, bind_ok]
  show (Except.ok (((xs.filter p).reverse ++ []).reverse) : Run (List α)) = _
  rw [List.append_nil, List.reverse_reverse]

theorem forM_ok {f : α → Run PUnit} {xs : List α} (h : ∀ x ∈ xs, f x = .ok ⟨⟩) :
    xs.forM f = .ok ⟨⟩ := by
  induction xs with
  | nil => rfl
  | cons x xs ih =>
    show (f x >>= fun _ => xs.forM f) = _
    rw [h x List.mem_cons_self]
    exact ih fun y hy => h y (List.mem_cons_of_mem _ hy)

theorem mapM_ok {f : α → Run β} {g : α → β} {xs : List α} (h : ∀ x ∈ xs, f x = .ok (g x)) :
    xs.mapM f = .ok (xs.map g) := by
  induction xs with
  | nil => rfl
  | cons x xs ih =>
    rw [List.mapM_cons, h x List.mem_cons_self, bind_ok, ih fun y hy => h y (List.mem_cons_of_mem _ hy)]
    rfl

theorem allM_ok {f : α → Run Bool} {p : α → Bool} {xs : List α} (h : ∀ x ∈ xs, f x = .ok (p x)) :
    xs.allM f = .ok (xs.all p) := by
  induction xs with
  | nil => rfl
  | cons x xs ih =>
    rw [List.allM, h x List.mem_cons_self, bind_ok, List.all_cons,
      ih fun y hy => h y (List.mem_cons_of_mem _ hy)]
    cases p x <;> rfl

theorem of_allM_eq_true {f : α → Run Bool} {xs : List α} (h : xs.allM f = .ok true) :
    ∀ x ∈ xs, f x = .ok true := by
  induction xs with
  | nil => simp
  | cons x xs ih =>
    rw [List.allM] at h
    obtain ⟨b, hb, h⟩ := of_bind_eq_ok h
    cases b with
    | false => cases h
    | true =>
      intro y hy
      rcases List.mem_cons.mp hy with rfl | hy
      · exact hb
      · exact ih h y hy

def forRange (n : Nat) (s : σ) (f : Nat → σ → Run σ) : Run σ :=
  (List.range n).foldlM (fun s i => f i s) s

@[simp] theorem forRange_zero (s : σ) (f : Nat → σ → Run σ) : forRange 0 s f = .ok s := rfl

theorem forRange_succ (n : Nat) (s : σ) (f : Nat → σ → Run σ) :
    forRange (n + 1) s f = forRange n s f >>= f n := by
  unfold forRange
  rw [List.range_succ, List.foldlM_append]
  refine congrArg _ (funext fun s' => ?_)
  rw [List.foldlM_cons]
  cases f n s' <;> rfl

theorem Returns.forRange {n : Nat} {s : σ} {f : Nat → σ → Run σ} (I : Nat → σ → Prop)
    (hs : I 0 s) (hstep : ∀ i s, i < n → I i s → Returns (f i s) (I (i + 1))) :
    Returns (forRange n s f) (I n) := by
  induction n with
  | zero => exact (returns_ok s _).mpr hs
  | succ n ih =>
    rw [forRange_succ]
    exact (ih fun i s hi => hstep i s (by omega)).bind fun s' => hstep n s' (by omega)

theorem forRange_ok_inv {n : Nat} {s s' : σ} {f : Nat → σ → Run σ} (I : σ → Prop) (hs : I s)
    (hstep : ∀ i s s', I s → f i s = .ok s' → I s') (h : forRange n s f = .ok s') : I s' :=
  foldlM_ok_inv I hs (fun i _ => hstep i) h

theorem foldlM_flatMap {f : σ → β → Run σ} {g : α → List β} (xs : List α) (s : σ) :
    (xs.flatMap g).foldlM f s = xs.foldlM (fun s x => (g x).foldlM f s) s := by
  induction xs generalizing s with
  | nil => rfl
  | cons x xs ih =>
    rw [List.flatMap_cons, List.foldlM_append, List.foldlM_cons]
    exact congrArg _ (funext ih)

/-- The pairs `(i, j)` with `j < i < n`. -/
def pairsBelow (n : Nat) : List (Nat × Nat) :=
  (List.range n).flatMap fun i => (List.range i).map fun j => (i, j)

theorem mem_pairsBelow {n : Nat} {p : Nat × Nat} : p ∈ pairsBelow n ↔ p.1 < n ∧ p.2 < p.1 := by
  simp only [pairsBelow, List.mem_flatMap, List.mem_range, List.mem_map, Prod.ext_iff]
  constructor
  · rintro ⟨i, hi, j, hj, rfl, rfl⟩
    exact ⟨hi, hj⟩
  · rintro ⟨hi, hj⟩
    exact ⟨p.1, hi, p.2, hj, rfl, rfl⟩

theorem forRange_below (n : Nat) (s : σ) (f : Nat → Nat → σ → Run σ) :
    forRange n s (fun i s => forRange i s (f i)) = (pairsBelow n).foldlM (fun s p => f p.1 p.2 s) s := by
  unfold forRange pairsBelow
  rw [foldlM_flatMap]
  simp only [List.foldlM_map]

theorem foldlM_congr {f g : σ → α → Run σ} {xs : List α} (h : ∀ x ∈ xs, ∀ s, f s x = g s x) (s : σ) :
    xs.foldlM f s = xs.foldlM g s := by
  induction xs generalizing s with
  | nil => rfl
  | cons x xs ih =>
    rw [List.foldlM_cons, List.foldlM_cons, h x List.mem_cons_self]
    exact congrArg _ (funext fun s' => ih (fun y hy => h y (List.mem_cons_of_mem _ hy)) s')

/-- A program that faults by a panic only, and never by an `Err`. -/
def NoErr (m : Run α) : Prop := ∀ message, m ≠ .error (.err message)

theorem NoErr.ok (a : α) : NoErr (.ok a : Run α) := nofun

theorem NoErr.bind {m : Run α} {f : α → Run β} (hm : NoErr m) (hf : ∀ a, NoErr (f a)) : NoErr (m >>= f) := by
  intro message h
  cases m with
  | error e =>
    cases h
    exact hm message rfl
  | ok a => exact hf a message h

theorem NoErr.get (xs : List α) (i : Nat) : NoErr (get xs i) := by
  unfold Run.get
  split <;> nofun

theorem NoErr.unwrap (o : Option α) : NoErr (unwrap o) := by
  cases o <;> nofun

theorem NoErr.forRange {n : Nat} {s : σ} {f : Nat → σ → Run σ} (hf : ∀ i s, NoErr (f i s)) :
    NoErr (forRange n s f) := by
  induction n with
  | zero => exact NoErr.ok s
  | succ n ih =>
    rw [forRange_succ]
    exact ih.bind (hf n)

/-- A program that gives a value or an `Err`, and never panics. -/
def NoPanic (m : Run α) : Prop := ∀ e, m = .error e → ∃ message, e = .err message

@[simp] theorem noPanic_ok (a : α) : NoPanic (.ok a : Run α) := by
  intro e h
  cases h

@[simp] theorem noPanic_pure (a : α) : NoPanic (pure a : Run α) := noPanic_ok a

@[simp] theorem noPanic_error {e : Fault} : NoPanic (.error e : Run α) ↔ ∃ message, e = .err message := by
  simp [NoPanic]

theorem noPanic_bind {m : Run α} {f : α → Run β} :
    NoPanic (m >>= f) ↔ NoPanic m ∧ ∀ a, m = .ok a → NoPanic (f a) := by
  cases m <;> simp

theorem noPanic_map {m : Run α} {f : α → β} : NoPanic (f <$> m) ↔ NoPanic m := by
  cases m
  · exact noPanic_error.trans noPanic_error.symm
  · exact iff_of_true (noPanic_ok _) (noPanic_ok _)

theorem noPanic_foldlM {f : σ → α → Run σ} (h : ∀ s x, NoPanic (f s x)) (xs : List α) (s : σ) :
    NoPanic (xs.foldlM f s) := by
  induction xs generalizing s with
  | nil => exact noPanic_pure s
  | cons x xs ih =>
    rw [List.foldlM_cons, noPanic_bind]
    exact ⟨h s x, fun s' _ => ih s'⟩

/-- `loop`: a body either goes round again with a new state or breaks with a value. The
fuel bounds the rounds; running out is `Fault.diverge`. -/
def loop (fuel : Nat) (body : σ → Run (σ ⊕ β)) (s : σ) : Run β :=
  match fuel with
  | 0 => .error .diverge
  | fuel + 1 => do
    match ← body s with
    | .inl s' => loop fuel body s'
    | .inr b => pure b

theorem NoErr.loop {fuel : Nat} {body : σ → Run (σ ⊕ β)} (h : ∀ s, NoErr (body s)) (s : σ) :
    NoErr (loop fuel body s) := by
  induction fuel generalizing s with
  | zero => intro message h; cases h
  | succ fuel ih =>
    rw [Run.loop]
    refine (h s).bind fun r => ?_
    cases r with
    | inl s' => exact ih s'
    | inr b => exact NoErr.ok b

/-- One round of a loop body: the invariant again, on a smaller state, or the result. -/
def Round (I : σ → Prop) (μ : σ → Nat) (Q : β → Prop) (s : σ) : σ ⊕ β → Prop
  | .inl s' => I s' ∧ μ s' < μ s
  | .inr b => Q b

theorem Returns.loop {fuel : Nat} {body : σ → Run (σ ⊕ β)} {s : σ} {Q : β → Prop} (I : σ → Prop)
    (μ : σ → Nat) (hs : I s) (hfuel : μ s < fuel)
    (hbody : ∀ s, I s → Returns (body s) (Round I μ Q s)) : Returns (loop fuel body s) Q := by
  induction fuel generalizing s with
  | zero => omega
  | succ fuel ih =>
    rw [Run.loop]
    refine (hbody s hs).bind fun r hr => ?_
    cases r with
    | inl s' => exact ih hr.1 (by have := hr.2; omega)
    | inr b => exact (returns_pure b Q).mpr hr

theorem loop_ok_inv {fuel : Nat} {body : σ → Run (σ ⊕ β)} {s : σ} {b : β} (I : σ → Prop)
    (Q : β → Prop) (hs : I s) (hnext : ∀ s s', I s → body s = .ok (.inl s') → I s')
    (hdone : ∀ s b, I s → body s = .ok (.inr b) → Q b) (h : loop fuel body s = .ok b) : Q b := by
  induction fuel generalizing s with
  | zero => cases h
  | succ fuel ih =>
    rw [loop] at h
    obtain ⟨r, hr, h⟩ := of_bind_eq_ok h
    cases r with
    | inl s' => exact ih (hnext s s' hs hr) h
    | inr b' =>
      cases h
      exact hdone s b hs hr

theorem loop_congr {fuel : Nat} {body body' : σ → Run (σ ⊕ β)} {s : σ} (I : σ → Prop) (hs : I s)
    (hnext : ∀ s s', I s → body s = .ok (.inl s') → I s') (heq : ∀ s, I s → body' s = body s) :
    loop fuel body' s = loop fuel body s := by
  induction fuel generalizing s with
  | zero => rfl
  | succ fuel ih =>
    rw [loop, loop, heq s hs]
    cases hb : body s with
    | error e => rfl
    | ok r =>
      cases r with
      | inl s' => exact ih (hnext s s' hs hb)
      | inr b => rfl

/-- More fuel changes nothing once a loop returns. -/
theorem loop_mono {fuel fuel' : Nat} {body : σ → Run (σ ⊕ β)} {s : σ} {b : β}
    (h : loop fuel body s = .ok b) (hle : fuel ≤ fuel') : loop fuel' body s = .ok b := by
  induction fuel generalizing s fuel' with
  | zero => cases h
  | succ fuel ih =>
    obtain ⟨k, rfl⟩ : ∃ k, fuel' = k + 1 := ⟨fuel' - 1, by omega⟩
    rw [loop] at h ⊢
    obtain ⟨r, hr, h⟩ := of_bind_eq_ok h
    rw [hr, bind_ok]
    cases r with
    | inl s' => exact ih h (by omega)
    | inr b' => exact h

end Run

/-! ## Machine arithmetic -/

/-- How the `u32` operations are read: a debug build faults on overflow, a release build
wraps, and the exact reading has no upper bound. -/
inductive Arith where
  | checked
  | wrapping
  | exact
deriving DecidableEq, Repr

def u32Max : Nat := 4294967295

namespace Arith

def add (ar : Arith) (a b : Nat) : Run Nat :=
  match ar with
  | .checked => if a + b ≤ u32Max then .ok (a + b) else .error .arith
  | .wrapping => .ok ((a + b) % (u32Max + 1))
  | .exact => .ok (a + b)

/-- A result below zero faults unless it wraps. -/
def sub (ar : Arith) (a b : Nat) : Run Nat :=
  match ar with
  | .wrapping => .ok ((a + (u32Max + 1) - b) % (u32Max + 1))
  | _ => if b ≤ a then .ok (a - b) else .error .arith

theorem sub_of_le {ar : Arith} {a b : Nat} (h : b ≤ a) (ha : a ≤ u32Max) :
    ar.sub a b = .ok (a - b) := by
  cases ar with
  | wrapping =>
    have h1 : a + (u32Max + 1) - b = a - b + (u32Max + 1) := by omega
    have h2 : a - b < u32Max + 1 := by omega
    simp only [sub, h1, Nat.add_mod_right, Nat.mod_eq_of_lt h2]
  | _ => simp [sub, h]

theorem add_eq_ok {ar : Arith} {a b c : Nat} (har : ar ≠ .wrapping) (h : ar.add a b = .ok c) :
    c = a + b := by
  cases ar with
  | checked => simp only [add] at h; split at h <;> simp_all
  | wrapping => exact absurd rfl har
  | exact => simpa [add] using h.symm

theorem sub_eq_ok {ar : Arith} {a b c : Nat} (har : ar ≠ .wrapping) (h : ar.sub a b = .ok c) :
    b ≤ a ∧ c = a - b := by
  cases ar with
  | wrapping => exact absurd rfl har
  | checked | exact => simp only [sub] at h; split at h <;> simp_all

theorem sub_le {ar : Arith} {a b c : Nat} (h : ar.sub a b = .ok c) (ha : a ≤ u32Max) : c ≤ u32Max := by
  cases ar with
  | wrapping =>
    simp only [sub, Except.ok.injEq, u32Max] at h ⊢
    omega
  | checked | exact =>
    have := sub_eq_ok (by simp) h
    omega

theorem sub_ne_self {ar : Arith} {a b : Nat} (hb : b ≠ 0) (ha : a ≤ u32Max) (hle : b ≤ u32Max) :
    ar.sub a b ≠ .ok a := by
  intro h
  cases ar with
  | wrapping =>
    simp only [sub, Except.ok.injEq, u32Max] at h ha hle
    omega
  | checked | exact =>
    have := sub_eq_ok (by simp) h
    omega

/-- Equal results of an addition: a sum that wraps is known up to a multiple of `2^32`. -/
def Agrees (ar : Arith) (a b : Nat) : Prop :=
  match ar with
  | .wrapping => a % (u32Max + 1) = b % (u32Max + 1)
  | _ => a = b

theorem Agrees.refl (ar : Arith) (a : Nat) : ar.Agrees a a := by
  cases ar <;> rfl

theorem Agrees.trans {ar : Arith} {a b c : Nat} (h : ar.Agrees a b) (h' : ar.Agrees b c) : ar.Agrees a c := by
  cases ar <;> exact Eq.trans h h'

theorem Agrees.add_right {ar : Arith} {a b : Nat} (h : ar.Agrees a b) (c : Nat) :
    ar.Agrees (a + c) (b + c) := by
  cases ar with
  | wrapping => exact Nat.ModEq.add_right c h
  | checked | exact => exact congrArg (· + c) h

theorem agrees_iff {ar : Arith} (har : ar ≠ .wrapping) {a b : Nat} : ar.Agrees a b ↔ a = b := by
  cases ar with
  | wrapping => exact absurd rfl har
  | checked | exact => exact Iff.rfl

theorem add_agrees {ar : Arith} {a b c : Nat} (h : ar.add a b = .ok c) : ar.Agrees c (a + b) := by
  cases ar with
  | wrapping =>
    cases h
    exact Nat.mod_mod _ _
  | checked | exact => exact add_eq_ok (by simp) h

end Arith

def usizeSub (a b : Nat) : Run Nat := if b ≤ a then .ok (a - b) else .error .arith

theorem Run.NoErr.usizeSub (a b : Nat) : Run.NoErr (usizeSub a b) := by
  unfold Kollaps.usizeSub
  split <;> nofun

theorem usizeSub_of_le {a b : Nat} (h : b ≤ a) : usizeSub a b = .ok (a - b) := by
  simp [usizeSub, h]

theorem usizeSub_eq_ok {a b c : Nat} : usizeSub a b = .ok c ↔ b ≤ a ∧ c = a - b := by
  unfold usizeSub
  split <;> rename_i h
  · rw [Except.ok.injEq, and_iff_right h, eq_comm]
  · exact iff_of_false (by simp) fun hle => h hle.1

end Kollaps
