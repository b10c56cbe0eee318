import Kollaps.Emulcore.Synchronize
import Mathlib.Logic.Function.Basic

/-!
# One message round the ring

The hosts of a ring by their positions, the leader at 0. One message at most is under way. Where
it is says what every core has stored.
-/

namespace Kollaps

namespace Emulcore

/-- `flight p` holds the messages on the connection to `p`. -/
structure Lap where
  now : Nat
  core : Nat → Sync
  flight : Nat → List ECSynchroMessage

namespace Lap

variable {n : Nat}

def start : Lap := ⟨0, fun _ => Sync.build, fun _ => []⟩

def set (a : Lap) (p : Nat) (s : Sync) (flight : Nat → List ECSynchroMessage) : Lap :=
  { a with core := Function.update a.core p s, flight }

@[simp] theorem flight_set (a : Lap) (p : Nat) (s : Sync) (flight : Nat → List ECSynchroMessage) :
    (a.set p s flight).flight = flight := rfl

@[simp] theorem core_set (a : Lap) (p : Nat) (s : Sync) (flight : Nat → List ECSynchroMessage) :
    (a.set p s flight).core p = s := Function.update_self ..

theorem core_set_of_ne (a : Lap) {p q : Nat} (s : Sync) (flight : Nat → List ECSynchroMessage)
    (h : q ≠ p) : (a.set p s flight).core q = a.core q := Function.update_of_ne h ..

/-- What can happen on a ring of `n` hosts. -/
inductive Turn (n : Nat) : Lap → Lap → Prop where
  | tick (a : Lap) (d : Nat) : Turn n a { a with now := a.now + d }
  | enter {a : Lap} {p : Nat} (hp : p < n) (h : (a.core p).state = .idle) :
      Turn n a (a.set p ((a.core p).enter n (decide (p = 0)) a.now) a.flight)
  | receive {a : Lap} {p : Nat} {message : ECSynchroMessage} {rest : List ECSynchroMessage} (hp : p < n)
      (h : (a.core p).state = .waiting) (hflight : a.flight p = message :: rest) :
      Turn n a (a.set p ((a.core p).receive (decide (p = 0)) message) (Function.update a.flight p rest))
  | read {a : Lap} {p : Nat} {s : Sync} (hp : p < n)
      (h : (a.core p).read (decide (p = 0)) a.now = some s) : Turn n a (a.set p s a.flight)
  | send {a : Lap} {p : Nat} {message : ECSynchroMessage} (hp : p < n)
      (h : (a.core p).state = .sending message) :
      Turn n a (a.set p ((a.core p).sent (decide (p = 0)) message)
        (Function.update a.flight ((p + 1) % n) (a.flight ((p + 1) % n) ++ [message])))
  | wake {a : Lap} {p : Nat} (hp : p < n) (h : (a.core p).state = .sleeping)
      (htime : (a.core p).beginTime ≤ a.now) :
      Turn n a (a.set p { a.core p with state := .done } a.flight)
  | abort {a : Lap} {p : Nat} (hp : p < n) (h : (a.core p).state ≠ .done) :
      Turn n a (a.set p { a.core p with state := .failed } a.flight)

/-! ## The invariant -/

/-- The message under way: on the connection to a place, or held there. Place 0 is the leader that
sends, and place `n` is the leader again. -/
structure Token where
  place : Nat
  held : Bool
  message : ECSynchroMessage

/-- The place at which the connection to a position ends. -/
def arrival (n p : Nat) : Nat := if p = 0 then n else p

def place (n p : Nat) (state : SyncState) : Nat :=
  match state with
  | .sending _ => p
  | _ => arrival n p

/-- The core at `p` has got the proposal that is under way, or the one that is confirmed. -/
def Token.Reached (t : Token) (p : Nat) : Prop :=
  t.message = .emulStartOk ∨ p < t.place ∨ (t.held = true ∧ p = t.place)

def returned : SyncState → Bool
  | .measuring _ | .comparing _ _ | .adapting _ _ => true
  | _ => false

/-- What a core at `p` has stored, when the token is at most where `tok` says and the leader holds
the time `begin_`. -/
structure CoreAt (n : Nat) (tok : Option Token) (begin_ : Nat) (p : Nat) (s : Sync) : Prop where
  held : ∀ m, s.state.carried = some m → tok = some ⟨place n p s.state, true, m⟩
  stored : ∀ t, tok = some t → t.Reached p → s.state ≠ .idle ∧ s.beginTime = begin_
  unchecked : ∀ t b, tok = some t → t.message = .emulStart b → s.checkedAt = none
  checked : ∀ x, s.checkedAt = some x → s.state ≠ .idle ∧ x < s.beginTime ∧ s.beginTime = begin_
  passed : s.state = .sleeping ∨ s.state = .done ∨ (0 < p ∧ s.state = .sending .emulStartOk) →
    s.checkedAt ≠ none
  leader : returned s.state = true → p = 0

structure Inv (n : Nat) (a : Lap) (tok : Option Token) : Prop where
  flight : ∀ p, p < n → ∀ m rest, a.flight p = m :: rest → rest = [] ∧ tok = some ⟨arrival n p, false, m⟩
  proposed : ∀ t b, tok = some t → t.message = .emulStart b → b.time = (a.core 0).beginTime
  core : ∀ p, p < n → CoreAt n tok (a.core 0).beginTime p (a.core p)
  idle : (a.core 0).state = .idle → tok = none ∧ ∀ p, p < n → (a.core p).checkedAt = none

theorem inv_start : Inv n start none := by
  refine ⟨by simp [start], by simp, fun p _ => ?_, by simp [start, Sync.build]⟩
  constructor <;> simp [start, Sync.build, SyncState.carried, returned]

theorem CoreAt.other {tok tok' : Option Token} {begin_ begin' p : Nat} {s : Sync}
    (h : CoreAt n tok begin_ p s) (hnone : s.state.carried = none)
    (hstored : ∀ t, tok' = some t → t.Reached p → s.state ≠ .idle ∧ s.beginTime = begin')
    (hunchecked : ∀ t b, tok' = some t → t.message = .emulStart b → s.checkedAt = none)
    (hchecked : s.checkedAt ≠ none → begin' = begin_) : CoreAt n tok' begin' p s := by
  refine ⟨fun m hm => ?_, hstored, hunchecked, fun x hx => ?_, h.passed, h.leader⟩
  · rw [hnone] at hm
    cases hm
  · rw [hchecked (by simp [hx])]
    exact h.checked x hx

theorem arrival_inj {p q : Nat} (hp : p < n) (hq : q < n) (h : arrival n p = arrival n q) : p = q := by
  unfold arrival at h
  split at h <;> split at h <;> omega

theorem place_inj {p q : Nat} {s t : SyncState} (hp : p < n) (hq : q < n)
    (h : place n p s = place n q t) : p = q := by
  have hplace : ∀ r s, place n r s = r ∨ (r = 0 ∧ place n r s = n) := by
    intro r s
    unfold place arrival
    split
    · exact Or.inl rfl
    · split
      · exact Or.inr ⟨by assumption, rfl⟩
      · exact Or.inl rfl
  rcases hplace p s with h₁ | h₁ <;> rcases hplace q t with h₂ | h₂ <;> omega

theorem Inv.alone {a : Lap} {tok : Option Token} (h : Inv n a tok) {p : Nat} (hp : p < n)
    {m : ECSynchroMessage} (hm : (a.core p).state.carried = some m) :
    (∀ q, q < n → q ≠ p → (a.core q).state.carried = none) ∧ ∀ q, q < n → a.flight q = [] := by
  have htok := (h.core p hp).held m hm
  constructor
  · intro q hq hqp
    cases hc : (a.core q).state.carried with
    | none => rfl
    | some m' =>
      have htok' := (h.core q hq).held m' hc
      rw [htok, Option.some.injEq, Token.mk.injEq] at htok'
      exact absurd (place_inj hp hq htok'.1).symm hqp
  · intro q hq
    cases hf : a.flight q with
    | nil => rfl
    | cons m' rest =>
      have htok' := (h.flight q hq m' rest hf).2
      rw [htok, Option.some.injEq, Token.mk.injEq] at htok'
      exact absurd htok'.2.1 (by simp)

theorem Inv.flying {a : Lap} {tok : Option Token} (h : Inv n a tok) {p : Nat} (hp : p < n)
    {m : ECSynchroMessage} {rest : List ECSynchroMessage} (hm : a.flight p = m :: rest) :
    (∀ q, q < n → (a.core q).state.carried = none) ∧ ∀ q, q < n → q ≠ p → a.flight q = [] := by
  have htok := (h.flight p hp m rest hm).2
  constructor
  · intro q hq
    cases hc : (a.core q).state.carried with
    | none => rfl
    | some m' =>
      have htok' := (h.core q hq).held m' hc
      rw [htok, Option.some.injEq, Token.mk.injEq] at htok'
      exact absurd htok'.2.1 (by simp)
  · intro q hq hqp
    cases hf : a.flight q with
    | nil => rfl
    | cons m' rest' =>
      have htok' := (h.flight q hq m' rest' hf).2
      rw [htok, Option.some.injEq, Token.mk.injEq] at htok'
      exact absurd (arrival_inj hp hq htok'.1).symm hqp

theorem Inv.set {a : Lap} {tok tok' : Option Token} (h : Inv n a tok) {p : Nat} {s : Sync}
    {flight : Nat → List ECSynchroMessage}
    (hflight : ∀ q, q < n → ∀ m rest, flight q = m :: rest →
      rest = [] ∧ tok' = some ⟨arrival n q, false, m⟩)
    (hproposed : ∀ t b, tok' = some t → t.message = .emulStart b →
      b.time = ((a.set p s flight).core 0).beginTime)
    (hcore : CoreAt n tok' ((a.set p s flight).core 0).beginTime p s)
    (hothers : ∀ q, q < n → q ≠ p → CoreAt n tok' ((a.set p s flight).core 0).beginTime q (a.core q))
    (hidle : p = 0 → s.state ≠ .idle)
    (hidle' : p ≠ 0 → (a.core 0).state = .idle → tok' = none ∧ s.checkedAt = none) :
    Inv n (a.set p s flight) tok' := by
  refine ⟨hflight, hproposed, fun q hq => ?_, fun hstate => ?_⟩
  · by_cases hqp : q = p
    · subst hqp
      rw [core_set]
      exact hcore
    · rw [core_set_of_ne a s flight hqp]
      exact hothers q hq hqp
  · by_cases hp0 : p = 0
    · subst hp0
      rw [core_set] at hstate
      exact absurd hstate (hidle rfl)
    · rw [core_set_of_ne a s flight (Ne.symm hp0)] at hstate
      obtain ⟨htok, hnone⟩ := hidle' hp0 hstate
      refine ⟨htok, fun q hq => ?_⟩
      by_cases hqp : q = p
      · subst hqp
        rw [core_set]
        exact hnone
      · rw [core_set_of_ne a s flight hqp]
        exact (h.idle hstate).2 q hq

/-! ## The steps -/

theorem begin_set (a : Lap) {p : Nat} {s : Sync} (flight : Nat → List ECSynchroMessage)
    (h : p = 0 → s.beginTime = (a.core 0).beginTime) :
    ((a.set p s flight).core 0).beginTime = (a.core 0).beginTime := by
  by_cases hp : p = 0
  · rw [hp, core_set]
    exact h hp
  · rw [core_set_of_ne a s flight (Ne.symm hp)]

theorem Inv.quiet {a : Lap} {tok : Option Token} (h : Inv n a tok) {p : Nat} {s : Sync}
    (hbegin : p = 0 → s.beginTime = (a.core 0).beginTime)
    (hcore : CoreAt n tok (a.core 0).beginTime p s) (hidle : p = 0 → s.state ≠ .idle)
    (hidle' : p ≠ 0 → (a.core 0).state = .idle → s.checkedAt = none) : Inv n (a.set p s a.flight) tok := by
  have hset := begin_set a a.flight hbegin
  refine h.set h.flight (fun t b ht hb => ?_) (hset ▸ hcore) (fun q hq _ => ?_) hidle
    fun hp0 hstate => ⟨(h.idle hstate).1, hidle' hp0 hstate⟩
  · rw [hset]
    exact h.proposed t b ht hb
  · rw [hset]
    exact h.core q hq

theorem CoreAt.settle {tok : Option Token} {begin_ p : Nat} {s : Sync} (h : CoreAt n tok begin_ p s)
    {state : SyncState} (hcarried : state.carried = none) (hidle : state ≠ .idle)
    (hpassed : state = .sleeping ∨ state = .done → s.checkedAt ≠ none) :
    CoreAt n tok begin_ p { s with state } := by
  refine ⟨fun m hm => ?_, fun t ht hr => ⟨hidle, (h.stored t ht hr).2⟩, h.unchecked,
    fun x hx => ⟨hidle, (h.checked x hx).2⟩, ?_, fun hr => ?_⟩
  · rw [hcarried] at hm
    cases hm
  · rintro (hs | hs | ⟨-, hs⟩)
    · exact hpassed (Or.inl hs)
    · exact hpassed (Or.inr hs)
    · simp only at hs
      rw [hs] at hcarried
      cases hcarried
  · cases state <;> simp_all [returned, SyncState.carried]

theorem CoreAt.go {tok : Option Token} {begin_ p : Nat} {s : Sync} (h : CoreAt n tok begin_ p s)
    {state : SyncState} {m : ECSynchroMessage} (hm : s.state.carried = some m)
    (hcarried : state.carried = some m) (hplace : place n p state = place n p s.state)
    (hpassed : 0 < p → state ≠ .sending .emulStartOk) (hleader : returned state = true → p = 0) :
    CoreAt n tok begin_ p { s with state } := by
  have hidle : state ≠ .idle := by
    rintro rfl
    cases hcarried
  refine ⟨fun m' hm' => ?_, fun t ht hr => ⟨hidle, (h.stored t ht hr).2⟩, h.unchecked,
    fun x hx => ⟨hidle, (h.checked x hx).2⟩, ?_, hleader⟩
  · simp only at hm' ⊢
    rw [hcarried, ← hm] at hm'
    rw [hplace]
    exact h.held m' hm'
  · rintro (hs | hs | ⟨hp, hs⟩) <;> simp only at hs
    · rw [hs] at hcarried
      cases hcarried
    · rw [hs] at hcarried
      cases hcarried
    · exact absurd hs (hpassed hp)

theorem Inv.wake {a : Lap} {tok : Option Token} (h : Inv n a tok) {p : Nat} (hp : p < n)
    (hs : (a.core p).state = .sleeping) : Inv n (a.set p { a.core p with state := .done } a.flight) tok := by
  have hcore := h.core p hp
  exact h.quiet (fun hp0 => by rw [hp0]) (hcore.settle rfl (by simp) fun _ => hcore.passed (Or.inl hs))
    (by simp) fun _ hstate => (h.idle hstate).2 p hp

theorem Inv.abort {a : Lap} {tok : Option Token} (h : Inv n a tok) {p : Nat} (hp : p < n) :
    Inv n (a.set p { a.core p with state := .failed } a.flight) tok :=
  h.quiet (fun hp0 => by rw [hp0]) ((h.core p hp).settle rfl (by simp) (by simp)) (by simp)
    fun _ hstate => (h.idle hstate).2 p hp

/-- The leader starts a lap. Who has been there before does not matter to a new proposal, and a
confirmation follows a whole lap of the proposal. -/
theorem Inv.lead {a : Lap} {tok : Option Token} (h : Inv n a tok) {s : Sync} {m : ECSynchroMessage}
    (hs : s.state = .sending m)
    (hfree : (∀ q, q < n → q ≠ 0 → (a.core q).state.carried = none) ∧ ∀ q, q < n → a.flight q = [])
    (hunchecked : ∀ q, q < n → (a.core q).checkedAt = none) (hs' : s.checkedAt = none)
    (hm : (∃ b, m = .emulStart b ∧ b.time = s.beginTime) ∨ (m = .emulStartOk ∧
      ∀ q, q < n → (a.core q).state ≠ .idle ∧ (a.core q).beginTime = s.beginTime)) :
    Inv n (a.set 0 s a.flight) (some ⟨0, true, m⟩) := by
  have hidle : s.state ≠ .idle := by simp [hs]
  refine h.set (fun q hq m' rest hf => ?_) ?_ ?_ (fun q hq hq0 => ?_) (fun _ => hidle) (by simp)
  · rw [hfree.2 q hq] at hf
    cases hf
  · intro t b ht hb
    cases ht
    simp only at hb
    subst hb
    rw [core_set]
    rcases hm with ⟨b', hb', hb⟩ | ⟨hb', -⟩
    · cases hb'
      exact hb
    · cases hb'
  · rw [core_set]
    refine ⟨fun m' hm' => ?_, fun _ _ _ => ⟨hidle, rfl⟩, fun _ _ _ _ => hs', fun x hx => ?_, ?_, fun _ => rfl⟩
    · rw [hs] at hm' ⊢
      cases hm'
      rfl
    · rw [hs'] at hx
      cases hx
    · rw [hs]
      simp
  · rw [core_set]
    refine (h.core q hq).other (hfree.1 q hq hq0) (fun t ht hr => ?_) (fun _ _ _ _ => hunchecked q hq)
      fun hne => absurd (hunchecked q hq) hne
    cases ht
    rcases hr with hr | hr | ⟨-, hr⟩
    · simp only at hr
      subst hr
      rcases hm with ⟨b, hb, -⟩ | ⟨-, hstored⟩
      · cases hb
      · exact hstored q hq
    · simp at hr
    · exact absurd hr hq0

theorem Inv.enter {a : Lap} {tok : Option Token} (h : Inv n a tok) (hn : 1 < n) {p : Nat} (hp : p < n)
    (hs : (a.core p).state = .idle) :
    ∃ tok', Inv n (a.set p ((a.core p).enter n (decide (p = 0)) a.now) a.flight) tok' := by
  have hn1 : n ≠ 1 := by omega
  have hcore := h.core p hp
  by_cases hp0 : p = 0
  · subst hp0
    obtain ⟨rfl, hunchecked⟩ := h.idle hs
    refine ⟨_, h.lead (m := .emulStart ⟨a.now + fromSecs 5⟩) ?_ ⟨?_, ?_⟩ hunchecked ?_ (Or.inl ⟨_, rfl, ?_⟩)⟩
    · simp only [Sync.enter, if_neg hn1, decide_true, if_true]
    · intro q hq _
      cases hc : (a.core q).state.carried with
      | none => rfl
      | some m => cases (h.core q hq).held m hc
    · intro q hq
      cases hf : a.flight q with
      | nil => rfl
      | cons m rest => cases (h.flight q hq m rest hf).2
    · simp only [Sync.enter, if_neg hn1, decide_true, if_true]
      exact hunchecked 0 hp
    · simp only [Sync.enter, if_neg hn1, decide_true, if_true]
  · refine ⟨tok, h.quiet (fun hp0' => absurd hp0' hp0) ?_ (fun hp0' => absurd hp0' hp0) fun _ hstate => ?_⟩
    · -- The token has not been here, since the core did not wait for it.
      simp only [Sync.enter, if_neg hn1, decide_eq_true_eq, if_neg hp0]
      refine ⟨by simp [SyncState.carried], fun t ht hr => absurd hs (hcore.stored t ht hr).1,
        hcore.unchecked, fun x hx => absurd hs (hcore.checked x hx).1, by simp, by simp [returned]⟩
    · simp only [Sync.enter, if_neg hn1, decide_eq_true_eq, if_neg hp0]
      exact (h.idle hstate).2 p hp

theorem carried_receive (s : Sync) (leader : Bool) (m : ECSynchroMessage) :
    (s.receive leader m).state.carried = some m := by
  cases m <;> cases leader <;> rfl

theorem checkedAt_receive (s : Sync) (leader : Bool) (m : ECSynchroMessage) :
    (s.receive leader m).checkedAt = s.checkedAt := by
  cases m <;> cases leader <;> rfl

theorem beginTime_receive (s : Sync) (leader : Bool) (m : ECSynchroMessage) :
    ((leader = true ∨ m = .emulStartOk) ∧ (s.receive leader m).beginTime = s.beginTime) ∨
      ∃ b, m = .emulStart b ∧ (s.receive leader m).beginTime = b.time := by
  cases m with
  | emulStartOk => exact Or.inl ⟨Or.inr rfl, rfl⟩
  | emulStart b =>
    cases leader with
    | true => exact Or.inl ⟨Or.inl rfl, rfl⟩
    | false => exact Or.inr ⟨b, rfl, rfl⟩

theorem place_receive (s : Sync) (p : Nat) (m : ECSynchroMessage) :
    place n p (s.receive (decide (p = 0)) m).state = arrival n p := by
  cases m with
  | emulStartOk => rfl
  | emulStart b =>
    by_cases hp0 : p = 0
    · simp [Sync.receive, hp0, place]
    · simp [Sync.receive, hp0, place, arrival]

theorem CoreAt.receive {begin_ p : Nat} {s : Sync} {m : ECSynchroMessage}
    (h : CoreAt n (some ⟨arrival n p, false, m⟩) begin_ p s) (hlead : p = 0 → s.beginTime = begin_)
    (hbegin : ∀ b, m = .emulStart b → b.time = begin_) :
    CoreAt n (some ⟨arrival n p, true, m⟩) begin_ p (s.receive (decide (p = 0)) m) := by
  have hcarried := carried_receive s (decide (p = 0)) m
  have hidle : (s.receive (decide (p = 0)) m).state ≠ .idle := by
    intro hidle
    rw [hidle] at hcarried
    cases hcarried
  have hstored : (s.receive (decide (p = 0)) m).beginTime = begin_ := by
    rcases beginTime_receive s (decide (p = 0)) m with ⟨hp0 | rfl, hs⟩ | ⟨b, hb, hs⟩
    · exact hs.trans (hlead (decide_eq_true_eq.mp hp0))
    · exact hs.trans (h.stored _ rfl (Or.inl rfl)).2
    · exact hs.trans (hbegin b hb)
  refine ⟨fun m' hm' => ?_, fun _ _ _ => ⟨hidle, hstored⟩, fun t b ht hb => ?_, fun x hx => ?_,
    fun hpassed => ?_, fun hreturned => ?_⟩
  · rw [hcarried] at hm'
    cases hm'
    rw [place_receive]
  · cases ht
    rw [checkedAt_receive]
    exact h.unchecked _ b rfl hb
  · rw [checkedAt_receive] at hx
    obtain ⟨-, hlt, heq⟩ := h.checked x hx
    exact ⟨hidle, by omega, hstored⟩
  · rcases hpassed with hs | hs | ⟨hpos, hs⟩
    · rw [hs] at hcarried
      cases hcarried
    · rw [hs] at hcarried
      cases hcarried
    · cases m <;> simp [Sync.receive, Nat.ne_of_gt hpos] at hs
  · by_contra hp0
    cases m <;> simp [Sync.receive, hp0, returned] at hreturned

theorem CoreAt.taken {begin_ p q : Nat} {s : Sync} {m : ECSynchroMessage} (hq : q < n) (hqp : q ≠ p)
    (h : CoreAt n (some ⟨arrival n p, false, m⟩) begin_ q s) (hnone : s.state.carried = none) :
    CoreAt n (some ⟨arrival n p, true, m⟩) begin_ q s := by
  refine h.other hnone (fun t ht hr => ?_) (fun t b ht hb => ?_) fun _ => rfl
  · cases ht
    refine h.stored _ rfl ?_
    rcases hr with hr | hr | ⟨-, hr⟩
    · exact Or.inl hr
    · exact Or.inr (Or.inl hr)
    · -- Another position is before this place.
      refine Or.inr (Or.inl ?_)
      simp only [arrival] at hr ⊢
      split at hr <;> omega
  · cases ht
    exact h.unchecked _ b rfl hb

theorem Inv.receive {a : Lap} {tok : Option Token} (h : Inv n a tok) {p : Nat} (hp : p < n)
    {m : ECSynchroMessage} {rest : List ECSynchroMessage} (hflight : a.flight p = m :: rest) :
    Inv n (a.set p ((a.core p).receive (decide (p = 0)) m) (Function.update a.flight p rest))
      (some ⟨arrival n p, true, m⟩) := by
  obtain ⟨rfl, rfl⟩ := h.flight p hp m rest hflight
  obtain ⟨hcarried, hempty⟩ := h.flying hp hflight
  have hbegin : ∀ b, m = .emulStart b → b.time = (a.core 0).beginTime := fun b hb => h.proposed _ b rfl hb
  have hcore := (h.core p hp).receive (fun hp0 => by rw [hp0]) hbegin
  have hreached : Token.Reached ⟨arrival n p, true, m⟩ p := by
    by_cases hp0 : p = 0
    · exact Or.inr (Or.inl (by simp only [arrival, if_pos hp0]; exact hp))
    · exact Or.inr (Or.inr ⟨rfl, by simp only [arrival, if_neg hp0]⟩)
  have hstored := hcore.stored _ rfl hreached
  have hset := begin_set a (Function.update a.flight p []) fun _ : p = 0 => hstored.2
  refine h.set (fun q hq m' rest' hm' => ?_) (fun t b ht hb => ?_) (hset ▸ hcore) (fun q hq hqp => ?_)
    (fun _ => hstored.1) fun _ hidle => by cases (h.idle hidle).1
  · simp only [Function.update_apply] at hm'
    split at hm'
    · cases hm'
    · rename_i hqp
      rw [hempty q hq hqp] at hm'
      cases hm'
  · cases ht
    exact (hbegin b hb).trans hset.symm
  · rw [hset]
    exact (h.core q hq).taken hq hqp (hcarried q hq)

/-- A token that goes from the core at `p` to the next connection. -/
theorem CoreAt.passedOn {begin_ p q : Nat} {s : Sync} {m : ECSynchroMessage}
    (h : CoreAt n (some ⟨p, true, m⟩) begin_ q s) (hnone : s.state.carried = none) :
    CoreAt n (some ⟨p + 1, false, m⟩) begin_ q s := by
  refine h.other hnone (fun t ht hr => ?_) (fun t b ht hb => ?_) fun _ => rfl
  · cases ht
    refine h.stored _ rfl ?_
    rcases hr with hr | hr | ⟨hr, -⟩
    · exact Or.inl hr
    · simp only at hr
      rcases Nat.lt_succ_iff_lt_or_eq.mp hr with hr | hr
      · exact Or.inr (Or.inl hr)
      · exact Or.inr (Or.inr ⟨rfl, hr⟩)
    · cases hr
  · cases ht
    exact h.unchecked _ b rfl hb

theorem CoreAt.sent {begin_ p : Nat} {s : Sync} {m : ECSynchroMessage}
    (h : CoreAt n (some ⟨p, true, m⟩) begin_ p s) (hs : s.state = .sending m) :
    CoreAt n (some ⟨p + 1, false, m⟩) begin_ p (s.sent (decide (p = 0)) m) := by
  have hstored := h.stored _ rfl (Or.inr (Or.inr ⟨rfl, rfl⟩))
  refine CoreAt.passedOn ?_ (by cases m <;> cases decide (p = 0) <;> rfl)
  cases m with
  | emulStart b => exact h.settle rfl (by simp) (by simp)
  | emulStartOk =>
    refine h.settle (by cases decide (p = 0) <;> rfl) (by cases decide (p = 0) <;> simp) fun hsleep => ?_
    by_cases hp0 : p = 0
    · simp [hp0] at hsleep
    · exact h.passed (Or.inr (Or.inr ⟨Nat.pos_of_ne_zero hp0, hs⟩))

theorem Inv.send {a : Lap} {tok : Option Token} (h : Inv n a tok) {p : Nat} (hp : p < n)
    {m : ECSynchroMessage} (hs : (a.core p).state = .sending m) :
    Inv n (a.set p ((a.core p).sent (decide (p = 0)) m)
      (Function.update a.flight ((p + 1) % n) (a.flight ((p + 1) % n) ++ [m])))
      (some ⟨p + 1, false, m⟩) := by
  have hcarried : (a.core p).state.carried = some m := by rw [hs]; rfl
  obtain ⟨hothers, hempty⟩ := h.alone hp hcarried
  have htok : tok = some ⟨p, true, m⟩ := by
    have := (h.core p hp).held m hcarried
    rwa [hs] at this
  subst htok
  have hsent : ((a.core p).sent (decide (p = 0)) m).beginTime = (a.core p).beginTime := by cases m <;> rfl
  have hcore := (h.core p hp).sent hs
  have hstored := hcore.stored _ rfl (Or.inr (Or.inl (Nat.lt_succ_self p)))
  have hset := begin_set a (Function.update a.flight ((p + 1) % n) (a.flight ((p + 1) % n) ++ [m]))
    fun _ : p = 0 => hstored.2
  have hn : (p + 1) % n < n := Nat.mod_lt _ (by omega)
  -- The next position is the next place, or the leader at the end of the lap.
  have harrival : arrival n ((p + 1) % n) = p + 1 := by
    rcases Nat.lt_or_eq_of_le (Nat.succ_le_of_lt hp) with hlt | heq
    · rw [Nat.mod_eq_of_lt hlt, arrival, if_neg (by omega)]
    · rw [show p + 1 = n from heq, Nat.mod_self, arrival, if_pos rfl]
  refine h.set (fun q hq m' rest' hm' => ?_) (fun t b ht hb => ?_) (hset ▸ hcore) (fun q hq hqp => ?_)
    (fun _ => hstored.1) fun _ hidle => by cases (h.idle hidle).1
  · simp only [Function.update_apply] at hm'
    split at hm'
    · rename_i hqn
      subst hqn
      rw [hempty _ hn] at hm'
      cases hm'
      exact ⟨rfl, by rw [harrival]⟩
    · rw [hempty q hq] at hm'
      cases hm'
  · cases ht
    exact (h.proposed _ b rfl hb).trans hset.symm
  · rw [hset]
    exact (h.core q hq).passedOn (hothers q hq hqp)

theorem Inv.of_returned {a : Lap} {tok : Option Token} (h : Inv n a tok) (hn : 0 < n) {b : EmulBeginTime}
    (hreturned : returned (a.core 0).state = true)
    (hcarried : (a.core 0).state.carried = some (.emulStart b)) :
    tok = some ⟨n, true, .emulStart b⟩ := by
  rw [(h.core 0 hn).held _ hcarried]
  have hplace : place n 0 (a.core 0).state = n := by
    cases hs : (a.core 0).state <;> simp_all [returned, place, arrival]
  rw [hplace]

theorem Inv.read {a : Lap} {tok : Option Token} (h : Inv n a tok) {p : Nat} (hp : p < n) {s : Sync}
    (hread : (a.core p).read (decide (p = 0)) a.now = some s) : ∃ tok', Inv n (a.set p s a.flight) tok' := by
  have hcore := h.core p hp
  unfold Sync.read at hread
  split at hread
  · -- How long the round took.
    rename_i b hs
    cases hread
    obtain rfl := hcore.leader (by rw [hs]; rfl)
    refine ⟨tok, h.quiet (fun _ => rfl)
      (hcore.go (m := .emulStart b) (by rw [hs]; rfl) rfl ?_ ?_ (fun _ => rfl))
      (by simp) (by simp)⟩
    · rw [hs]
      rfl
    · simp
  · rename_i b roundDuration hs
    obtain rfl := hcore.leader (by rw [hs]; rfl)
    have hcarried : (a.core 0).state.carried = some (.emulStart b) := by rw [hs]; rfl
    have htok := h.of_returned hp (by rw [hs]; rfl) hcarried
    simp only at hread
    split at hread
    · -- The proposal has been everywhere, and is confirmed.
      cases hread
      subst htok
      refine ⟨_, h.lead rfl (h.alone hp hcarried) (fun q hq => (h.core q hq).unchecked _ b rfl rfl)
        (hcore.unchecked _ b rfl rfl) (Or.inr ⟨rfl, fun q hq => ?_⟩)⟩
      exact (h.core q hq).stored _ rfl (Or.inr (Or.inl hq))
    · cases hread
      refine ⟨tok, h.quiet (fun _ => rfl) (hcore.go hcarried rfl ?_ ?_ (fun _ => rfl)) (by simp) (by simp)⟩
      · rw [hs]
        rfl
      · simp
  · -- A new proposal.
    rename_i b roundDuration hs
    cases hread
    obtain rfl := hcore.leader (by rw [hs]; rfl)
    have hcarried : (a.core 0).state.carried = some (.emulStart b) := by rw [hs]; rfl
    have htok := h.of_returned hp (by rw [hs]; rfl) hcarried
    subst htok
    exact ⟨_, h.lead rfl (h.alone hp hcarried) (fun q hq => (h.core q hq).unchecked _ b rfl rfl)
      (hcore.unchecked _ b rfl rfl) (Or.inl ⟨_, rfl, rfl⟩)⟩
  · -- The confirmation is here, so this core has the time of the leader.
    rename_i hs
    have hcarried : (a.core p).state.carried = some .emulStartOk := by rw [hs]; rfl
    have htok := hcore.held _ hcarried
    rw [hs] at htok
    have hstored := hcore.stored _ htok (Or.inl rfl)
    have hleader : (a.core 0).state ≠ .idle := by
      intro hstate
      rw [(h.idle hstate).1] at htok
      cases htok
    split at hread
    · rename_i htime
      cases hread
      refine ⟨tok, h.quiet (fun hp0 => by rw [hp0]) ?_ ?_ fun _ hstate => absurd hstate hleader⟩
      · refine ⟨fun m hm => ?_, fun _ _ _ => ⟨?_, hstored.2⟩, fun t b ht hb => ?_, fun x hx => ?_, by simp,
          fun hr => ?_⟩
        · by_cases hp0 : p = 0
          · simp [hp0, SyncState.carried] at hm
          · simp only [hp0, decide_false, Bool.false_eq_true, if_false, SyncState.carried,
              Option.some.injEq] at hm
            subst hm
            simp only [hp0, decide_false, Bool.false_eq_true, if_false, htok, place, arrival]
        · split <;> simp
        · rw [htok, Option.some.injEq] at ht
          subst ht
          cases hb
        · cases hx
          refine ⟨?_, htime, hstored.2⟩
          split <;> simp
        · split at hr <;> cases hr
      · intro _
        split <;> simp
    · cases hread
      exact ⟨tok, h.abort hp⟩
  · cases hread

theorem Inv.turn {a a' : Lap} {tok : Option Token} (h : Inv n a tok) (hn : 1 < n) (ht : Turn n a a') :
    ∃ tok', Inv n a' tok' := by
  cases ht with
  | tick d => exact ⟨tok, h.flight, h.proposed, h.core, h.idle⟩
  | enter hp hs => exact h.enter hn hp hs
  | receive hp _ hflight => exact ⟨_, h.receive hp hflight⟩
  | read hp hread => exact h.read hp hread
  | send hp hs => exact ⟨_, h.send hp hs⟩
  | wake hp hs _ => exact ⟨_, h.wake hp hs⟩
  | abort hp _ => exact ⟨_, h.abort hp⟩

end Lap

end Emulcore

end Kollaps
