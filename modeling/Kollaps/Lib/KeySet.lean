import Mathlib.Data.List.Nodup
import Mathlib.Data.List.Perm.Basic
import Mathlib.Data.List.Perm.Subperm

/-!
# Hash sets that compare a key

Many Rust types write their own `Eq` and `Hash`, which look at a part of the value only.
A `KeySet key` is a `HashSet` of such values: a list in which no key occurs twice.
A `HashMap` is a `KeySet` of pairs.

The iteration order of a hash set is not specified. An `Iter` is one choice of it.
-/

namespace Kollaps

/-- One choice of iteration order for every hash set. -/
structure Iter where
  order : {α : Type} → List α → List α
  perm : ∀ {α : Type} (l : List α), (order l).Perm l

namespace Iter

def inOrder : Iter := ⟨fun l => l, fun _ => List.Perm.refl _⟩

def backward : Iter := ⟨fun l => l.reverse, fun l => List.reverse_perm l⟩

theorem mem_order {α : Type} (it : Iter) {l : List α} {a : α} : a ∈ it.order l ↔ a ∈ l :=
  (it.perm l).mem_iff

theorem length_order {α : Type} (it : Iter) (l : List α) : (it.order l).length = l.length :=
  (it.perm l).length_eq

end Iter

structure KeySet {α κ : Type} (key : α → κ) where
  elems : List α
  nodup : (elems.map key).Nodup
deriving DecidableEq

namespace KeySet

variable {α κ : Type} {key : α → κ}

def empty : KeySet key := ⟨[], by simp⟩

def len (s : KeySet key) : Nat := s.elems.length

def keys (s : KeySet key) : List κ := s.elems.map key

@[simp] theorem elems_empty : (empty : KeySet key).elems = [] := rfl

theorem eq_of_key_eq (s : KeySet key) {a b : α} (ha : a ∈ s.elems) (hb : b ∈ s.elems)
    (h : key a = key b) : a = b := List.inj_on_of_nodup_map s.nodup ha hb h

theorem elems_nodup (s : KeySet key) : s.elems.Nodup := List.Nodup.of_map key s.nodup

def filter (s : KeySet key) (p : α → Bool) : KeySet key :=
  ⟨s.elems.filter p, s.nodup.sublist (List.filter_sublist.map key)⟩

@[simp] theorem elems_filter (s : KeySet key) (p : α → Bool) :
    (s.filter p).elems = s.elems.filter p := rfl

variable [DecidableEq κ]

def get? (s : KeySet key) (k : κ) : Option α := s.elems.find? fun a => key a = k

def contains (s : KeySet key) (k : κ) : Bool := (s.get? k).isSome

def remove (s : KeySet key) (k : κ) : KeySet key := s.filter fun a => key a ≠ k

/-- `HashSet::replace`, and `HashMap::insert`: the new element wins. -/
def replace (s : KeySet key) (a : α) : KeySet key :=
  ⟨a :: (s.remove (key a)).elems, by
    rw [List.map_cons, List.nodup_cons]
    exact ⟨by simp [remove], (s.remove (key a)).nodup⟩⟩

/-- `HashSet::insert`: the old element wins. -/
def insert (s : KeySet key) (a : α) : KeySet key :=
  if s.contains (key a) then s else s.replace a

/-- `HashMap::insert` on a set of pairs: an old key stays, with the new value. -/
def put {V : Type} {key : α → κ} (m : KeySet fun p : α × V => key p.1) (a : α) (v : V) :
    KeySet fun p : α × V => key p.1 :=
  match m.get? (key a) with
  | some old => m.replace (old.1, v)
  | none => m.replace (a, v)

/-- `collect` into a set. -/
def collect (l : List α) : KeySet key := l.foldl insert empty

def difference (s t : KeySet key) : KeySet key := s.filter fun a => !t.contains (key a)

def inter (s t : KeySet key) : KeySet key := s.filter fun a => t.contains (key a)

def symmDiff (s t : KeySet key) : KeySet key :=
  collect ((s.difference t).elems ++ (t.difference s).elems)

def union (s t : KeySet key) : KeySet key := collect (s.elems ++ (t.difference s).elems)

/-! ## Lookup -/

theorem get?_eq_some {s : KeySet key} {k : κ} {a : α} :
    s.get? k = some a ↔ a ∈ s.elems ∧ key a = k := by
  constructor
  · intro h
    exact ⟨List.mem_of_find?_eq_some h, by simpa using List.find?_some h⟩
  · rintro ⟨ha, rfl⟩
    obtain ⟨b, hb⟩ : ∃ b, s.get? (key a) = some b :=
      Option.isSome_iff_exists.mp (by rw [get?, List.find?_isSome]; exact ⟨a, ha, by simp⟩)
    have hmem := List.mem_of_find?_eq_some hb
    have hkey : key b = key a := by simpa using List.find?_some hb
    rw [hb, s.eq_of_key_eq hmem ha hkey]

theorem get?_eq_none {s : KeySet key} {k : κ} : s.get? k = none ↔ ∀ a ∈ s.elems, key a ≠ k := by
  simp [get?]

theorem get?_key {s : KeySet key} {a : α} (h : a ∈ s.elems) : s.get? (key a) = some a :=
  get?_eq_some.mpr ⟨h, rfl⟩

theorem key_of_get? {s : KeySet key} {k : κ} {a : α} (h : s.get? k = some a) : key a = k :=
  (get?_eq_some.mp h).2

theorem mem_of_get? {s : KeySet key} {k : κ} {a : α} (h : s.get? k = some a) : a ∈ s.elems :=
  (get?_eq_some.mp h).1

theorem contains_iff {s : KeySet key} {k : κ} : s.contains k = true ↔ k ∈ s.keys := by
  simp [contains, get?, keys]

theorem contains_key {s : KeySet key} {a : α} (h : a ∈ s.elems) : s.contains (key a) = true := by
  simp [contains, get?_key h]

@[simp] theorem get?_empty (k : κ) : (empty : KeySet key).get? k = none := rfl

theorem get?_filter (s : KeySet key) (p : α → Bool) (k : κ) :
    (s.filter p).get? k = (s.get? k).filter p := by
  apply Option.ext
  intro a
  rw [get?_eq_some, Option.filter_eq_some_iff, get?_eq_some, elems_filter, List.mem_filter]
  tauto

theorem get?_remove (s : KeySet key) (k k' : κ) :
    (s.remove k).get? k' = if k' = k then none else s.get? k' := by
  rw [remove, get?_filter]
  split <;> rename_i h
  · subst h
    rw [Option.filter_eq_none_iff]
    intro a ha
    simp [key_of_get? ha]
  · cases hs : s.get? k' with
    | none => rfl
    | some a => simp [Option.filter, key_of_get? hs, h]

theorem mem_replace {s : KeySet key} {a b : α} :
    b ∈ (s.replace a).elems ↔ b = a ∨ (b ∈ s.elems ∧ key b ≠ key a) := by
  simp [replace, remove]

theorem get?_replace (s : KeySet key) (a : α) (k : κ) :
    (s.replace a).get? k = if k = key a then some a else s.get? k := by
  apply Option.ext
  intro b
  rw [get?_eq_some, mem_replace]
  split <;> rename_i h
  · subst h
    constructor
    · rintro ⟨rfl | ⟨-, hb⟩, hk⟩
      · rfl
      · exact absurd hk hb
    · rintro ⟨⟩
      exact ⟨Or.inl rfl, rfl⟩
  · rw [get?_eq_some]
    constructor
    · rintro ⟨rfl | ⟨hb, -⟩, rfl⟩
      · exact absurd rfl h
      · exact ⟨hb, rfl⟩
    · rintro ⟨hb, rfl⟩
      exact ⟨Or.inr ⟨hb, h⟩, rfl⟩

theorem mem_insert {s : KeySet key} {a b : α} (h : b ∈ (s.insert a).elems) : b ∈ s.elems ∨ b = a := by
  unfold insert at h
  split at h
  · exact Or.inl h
  · exact (mem_replace.mp h).symm.imp And.left (fun h => h)

theorem mem_insert_iff [DecidableEq α] {s : KeySet fun a : α => a} {a b : α} :
    b ∈ (s.insert a).elems ↔ b ∈ s.elems ∨ b = a := by
  refine ⟨mem_insert, fun h => ?_⟩
  unfold insert
  split <;> rename_i hin
  · rcases h with h | rfl
    · exact h
    · simpa [contains, get?] using hin
  · rw [mem_replace]
    by_cases hb : b = a <;> simp_all

theorem mem_foldl_insert [DecidableEq α] {l : List α} {s : KeySet fun a : α => a} {b : α} :
    b ∈ (l.foldl insert s).elems ↔ b ∈ s.elems ∨ b ∈ l := by
  induction l generalizing s with
  | nil => simp
  | cons a l ih => rw [List.foldl_cons, ih, mem_insert_iff, List.mem_cons, or_assoc]

theorem get?_put {V : Type} {key : α → κ} (m : KeySet fun p : α × V => key p.1) (a : α) (v : V)
    (k : κ) : (m.put a v).get? k =
      if k = key a then some (((m.get? (key a)).map Prod.fst).getD a, v) else m.get? k := by
  unfold put
  cases h : m.get? (key a) with
  | some old =>
    have hk := key_of_get? h
    simp only [get?_replace, hk, Option.map_some, Option.getD_some]
  | none => simp only [get?_replace, Option.map_none, Option.getD_none]

theorem get?_insert (s : KeySet key) (a : α) (k : κ) :
    (s.insert a).get? k = if k = key a then some ((s.get? (key a)).getD a) else s.get? k := by
  unfold insert contains
  cases h : s.get? (key a) with
  | none =>
    simp only [Option.isSome_none, Bool.false_eq_true, if_false, Option.getD_none]
    exact get?_replace s a k
  | some b =>
    simp only [Option.isSome_some, if_true, Option.getD_some]
    split <;> rename_i hk
    · rw [hk, h]
    · rfl

theorem get?_foldl_insert (l : List α) (s : KeySet key) (k : κ) :
    (l.foldl insert s).get? k = (s.get? k).or (l.find? fun a => key a = k) := by
  induction l generalizing s with
  | nil => simp
  | cons a l ih =>
    rw [List.foldl_cons, ih, get?_insert, List.find?_cons]
    rcases eq_or_ne k (key a) with rfl | h
    · cases s.get? (key a) <;> simp
    · rw [if_neg h, decide_eq_false (Ne.symm h)]

theorem get?_collect (l : List α) (k : κ) :
    (collect l : KeySet key).get? k = l.find? fun a => key a = k := by
  rw [collect, get?_foldl_insert, get?_empty, Option.none_or]

theorem elems_replace {s : KeySet key} {a : α} (h : s.contains (key a) = false) :
    (s.replace a).elems = a :: s.elems := by
  have hremove : (s.remove (key a)).elems = s.elems := by
    rw [remove, elems_filter, List.filter_eq_self]
    intro b hb
    simp only [ne_eq, decide_eq_true_eq]
    intro hk
    rw [← hk, contains_key hb] at h
    cases h
  simp only [replace, hremove]

theorem elems_insert {s : KeySet key} {a : α} (h : s.contains (key a) = false) :
    (s.insert a).elems = a :: s.elems := by
  rw [insert, h]
  exact elems_replace h

theorem elems_put {V : Type} {key : α → κ} {m : KeySet fun p : α × V => key p.1} {a : α} {v : V}
    (h : m.contains (key a) = false) : (m.put a v).elems = (a, v) :: m.elems := by
  have hnone : m.get? (key a) = none := by
    rw [contains, Option.isSome_eq_false_iff, Option.isNone_iff_eq_none] at h
    exact h
  rw [put, hnone]
  exact elems_replace h

theorem elems_foldl_insert {l : List α} {s : KeySet key} (h : (l.map key ++ s.keys).Nodup) :
    (l.foldl insert s).elems.Perm (l ++ s.elems) := by
  induction l generalizing s with
  | nil => exact List.Perm.refl _
  | cons a l ih =>
    rw [List.map_cons, List.cons_append, List.nodup_cons, List.mem_append, not_or] at h
    have ha : s.contains (key a) = false := by
      rw [Bool.eq_false_iff]
      exact fun hc => h.1.2 (contains_iff.mp hc)
    have helems := elems_insert ha
    rw [List.foldl_cons]
    refine (ih ?_).trans ?_
    · rw [keys, helems, List.map_cons]
      exact List.nodup_middle.mpr (List.nodup_cons.mpr ⟨by rw [List.mem_append]; exact not_or.mpr h.1, h.2⟩)
    · rw [helems]
      exact List.perm_middle

theorem elems_collect {l : List α} (h : (l.map key).Nodup) :
    (collect l : KeySet key).elems.Perm l := by
  have := elems_foldl_insert (s := (empty : KeySet key)) (l := l) (by simpa [keys] using h)
  simpa [collect] using this

theorem elems_foldl_put {V : Type} (key : α → κ) {l : List (α × V)} {m : KeySet fun p : α × V => key p.1}
    (h : (l.map (fun p => key p.1) ++ m.keys).Nodup) :
    (l.foldl (fun m p => m.put p.1 p.2) m).elems.Perm (l ++ m.elems) := by
  induction l generalizing m with
  | nil => exact List.Perm.refl _
  | cons p l ih =>
    rw [List.map_cons, List.cons_append, List.nodup_cons, List.mem_append, not_or] at h
    have hp : m.contains (key p.1) = false := by
      rw [Bool.eq_false_iff]
      exact fun hc => h.1.2 (contains_iff.mp hc)
    have helems := elems_put (v := p.2) hp
    rw [List.foldl_cons]
    refine (ih ?_).trans ?_
    · rw [keys, helems, List.map_cons]
      exact List.nodup_middle.mpr (List.nodup_cons.mpr ⟨by rw [List.mem_append]; exact not_or.mpr h.1, h.2⟩)
    · rw [helems]
      exact List.perm_middle

theorem keys_foldl_put_subset {V : Type} {key : α → κ} (l : List (α × V))
    (m : KeySet fun p : α × V => key p.1) :
    (l.foldl (fun m p => m.put p.1 p.2) m).keys ⊆ m.keys ++ l.map fun p => key p.1 := by
  induction l generalizing m with
  | nil => simp
  | cons p l ih =>
    rw [List.foldl_cons]
    intro k hk
    have hk' := ih _ hk
    rw [List.mem_append, ← contains_iff, contains, get?_put] at hk'
    rw [List.map_cons, List.mem_append, List.mem_cons, ← contains_iff, contains]
    by_cases hkp : k = key p.1
    · exact Or.inr (Or.inl hkp)
    · rw [if_neg hkp] at hk'
      exact hk'.imp_right Or.inr

/-- Fewer entries than were put means that a key came twice. -/
theorem len_foldl_put_le {V : Type} {key : α → κ} (l : List (α × V)) :
    (l.foldl (fun m p => m.put p.1 p.2) (empty : KeySet fun p : α × V => key p.1)).len ≤ l.length := by
  have hsub := keys_foldl_put_subset l (empty : KeySet fun p : α × V => key p.1)
  have hle := (List.subperm_of_subset (KeySet.nodup _) hsub).length_le
  simpa [keys, len] using hle

theorem nodup_of_len_foldl_put {V : Type} (key : α → κ) {l : List (α × V)}
    (h : l.length ≤ (l.foldl (fun m p => m.put p.1 p.2) (empty : KeySet fun p : α × V => key p.1)).len) :
    (l.map fun p => key p.1).Nodup := by
  have hsub := keys_foldl_put_subset l (empty : KeySet fun p : α × V => key p.1)
  have hperm := (List.subperm_of_subset (KeySet.nodup _) hsub).perm_of_length_le
    (by simpa [keys, len] using h)
  exact hperm.nodup_iff.mp (KeySet.nodup _)

theorem get?_map_of_perm {s t : KeySet key} {φ : α → α} (hφ : ∀ a, key (φ a) = key a)
    (h : t.elems.Perm (s.elems.map φ)) (k : κ) : t.get? k = (s.get? k).map φ := by
  apply Option.ext
  intro b
  rw [get?_eq_some, h.mem_iff, List.mem_map, Option.map_eq_some_iff]
  constructor
  · rintro ⟨⟨a, ha, rfl⟩, hk⟩
    rw [hφ] at hk
    exact ⟨a, get?_eq_some.mpr ⟨ha, hk⟩, rfl⟩
  · rintro ⟨a, ha, rfl⟩
    rw [get?_eq_some] at ha
    exact ⟨⟨a, ha.1, rfl⟩, (hφ a).trans ha.2⟩

theorem perm_map_of_get? {s t : KeySet key} {φ : α → α} (hφ : ∀ a, key (φ a) = key a)
    (h : ∀ k, t.get? k = (s.get? k).map φ) : t.elems.Perm (s.elems.map φ) := by
  have hnd : ((s.elems.map φ).map key).Nodup := by
    rw [List.map_map]
    exact (List.map_congr_left fun a _ => hφ a) ▸ s.nodup
  have himage := get?_map_of_perm (s := s) (t := ⟨s.elems.map φ, hnd⟩) hφ (List.Perm.refl _)
  refine (List.perm_ext_iff_of_nodup t.elems_nodup (List.Nodup.of_map key hnd)).mpr fun a => ?_
  have h1 := get?_eq_some (s := t) (k := key a) (a := a)
  have h2 := get?_eq_some (s := (⟨s.elems.map φ, hnd⟩ : KeySet key)) (k := key a) (a := a)
  rw [h, ← himage] at h1
  simp only [and_true] at h1 h2
  exact h1.symm.trans h2

theorem get?_foldl_replace {l : List α} (h : (l.map key).Nodup) (s : KeySet key) (k : κ) :
    (l.foldl replace s).get? k = (l.find? fun a => key a = k).or (s.get? k) := by
  induction l generalizing s with
  | nil => simp
  | cons a l ih =>
    rw [List.map_cons, List.nodup_cons] at h
    rw [List.foldl_cons, ih h.2, get?_replace, List.find?_cons]
    rcases eq_or_ne k (key a) with rfl | hk
    · have hnone : l.find? (fun b => key b = key a) = none := by
        rw [List.find?_eq_none]
        intro b hb hkb
        exact h.1 (List.mem_map.mpr ⟨b, hb, by simpa using hkb⟩)
      rw [hnone, if_pos rfl, decide_eq_true rfl]
      rfl
    · rw [if_neg hk, decide_eq_false (Ne.symm hk)]

theorem find?_order (it : Iter) (s : KeySet key) (k : κ) :
    ((it.order s.elems).find? fun a => key a = k) = s.get? k := by
  have hnd : ((it.order s.elems).map key).Nodup := ((it.perm s.elems).map key).nodup_iff.mpr s.nodup
  apply Option.ext
  intro a
  have h := get?_eq_some (s := (⟨it.order s.elems, hnd⟩ : KeySet key)) (k := k) (a := a)
  rw [get?_eq_some, ← it.mem_order]
  exact h

theorem get?_inter (s t : KeySet key) (k : κ) :
    (s.inter t).get? k = if t.contains k then s.get? k else none := by
  rw [inter, get?_filter]
  cases hs : s.get? k with
  | none => simp
  | some a => simp [Option.filter, key_of_get? hs]

theorem get?_difference (s t : KeySet key) (k : κ) :
    (s.difference t).get? k = if t.contains k then none else s.get? k := by
  rw [difference, get?_filter]
  cases hs : s.get? k with
  | none => simp
  | some a => cases ht : t.contains k <;> simp [Option.filter, key_of_get? hs, ht]

theorem get?_symmDiff (s t : KeySet key) (k : κ) :
    (s.symmDiff t).get? k =
      ((s.difference t).get? k).or ((t.difference s).get? k) := by
  rw [symmDiff, get?_collect, List.find?_append]
  rfl

theorem get?_union (s t : KeySet key) (k : κ) :
    (s.union t).get? k = (s.get? k).or ((t.difference s).get? k) := by
  rw [union, get?_collect, List.find?_append]
  rfl

theorem perm_cons_remove {s : KeySet key} {k : κ} {a : α} (h : s.get? k = some a) :
    s.elems.Perm (a :: (s.remove k).elems) := by
  obtain ⟨ha, hk⟩ := get?_eq_some.mp h
  have hnot : a ∉ (s.remove k).elems := by simp [remove, hk]
  refine (List.perm_ext_iff_of_nodup s.elems_nodup
    (List.nodup_cons.mpr ⟨hnot, (s.remove k).elems_nodup⟩)).mpr fun b => ?_
  rw [List.mem_cons, remove, elems_filter, List.mem_filter, decide_eq_true_eq]
  constructor
  · intro hb
    by_cases hbk : key b = k
    · exact Or.inl (s.eq_of_key_eq hb ha (hbk.trans hk.symm))
    · exact Or.inr ⟨hb, hbk⟩
  · rintro (rfl | hb)
    · exact ha
    · exact hb.1

theorem elems_remove_of_none {s : KeySet key} {k : κ} (h : s.get? k = none) :
    (s.remove k).elems = s.elems := by
  rw [remove, elems_filter, List.filter_eq_self]
  intro a ha
  rw [decide_eq_true_eq]
  exact get?_eq_none.mp h a ha

/-! ## Sets that answer alike -/

def Same (s t : KeySet key) : Prop := ∀ k, s.get? k = t.get? k

theorem Same.refl (s : KeySet key) : Same s s := fun _ => rfl

theorem Same.symm {s t : KeySet key} (h : Same s t) : Same t s := fun k => (h k).symm

theorem Same.trans {s t u : KeySet key} (h : Same s t) (h' : Same t u) : Same s u :=
  fun k => (h k).trans (h' k)

theorem Same.mem_iff {s t : KeySet key} (h : Same s t) {a : α} : a ∈ s.elems ↔ a ∈ t.elems := by
  have h1 := get?_eq_some (s := s) (k := key a) (a := a)
  have h2 := get?_eq_some (s := t) (k := key a) (a := a)
  rw [h] at h1
  simp only [and_true] at h1 h2
  exact h1.symm.trans h2

theorem Same.perm {s t : KeySet key} (h : Same s t) : s.elems.Perm t.elems :=
  (List.perm_ext_iff_of_nodup s.elems_nodup t.elems_nodup).mpr fun _ => h.mem_iff

theorem same_of_perm {s t : KeySet key} (h : s.elems.Perm t.elems) : Same s t := by
  intro k
  apply Option.ext
  intro a
  rw [get?_eq_some, get?_eq_some, h.mem_iff]

end KeySet

/-! ## Maps -/

/-- A `HashMap` whose keys compare as a whole. -/
abbrev KeyMap (κ V : Type) := KeySet fun p : κ × V => id p.1

namespace KeySet

variable {κ V : Type}

def mapValues (m : KeyMap κ V) (f : V → V) : KeyMap κ V :=
  ⟨m.elems.map fun p => (p.1, f p.2), by
    rw [List.map_map]
    exact m.nodup⟩

variable [DecidableEq κ]

def lookup (m : KeyMap κ V) (k : κ) : Option V := (m.get? k).map Prod.snd

theorem get?_eq_lookup (m : KeyMap κ V) (k : κ) : m.get? k = (m.lookup k).map fun v => (k, v) := by
  unfold lookup
  cases h : m.get? k with
  | none => rfl
  | some p =>
    have hk : p.1 = k := key_of_get? h
    rw [← hk]
    rfl

theorem lookup_eq_some {m : KeyMap κ V} {k : κ} {v : V} : m.lookup k = some v ↔ (k, v) ∈ m.elems := by
  have h : m.lookup k = some v ↔ m.get? k = some (k, v) := by
    rw [get?_eq_lookup]
    cases m.lookup k <;> simp
  rw [h, get?_eq_some]
  exact and_iff_left rfl

@[simp] theorem lookup_empty (k : κ) : (empty : KeyMap κ V).lookup k = none := rfl

theorem lookup_put (m : KeyMap κ V) (a : κ) (v : V) (k : κ) :
    (m.put a v).lookup k = if k = a then some v else m.lookup k := by
  unfold lookup
  rw [get?_put, id]
  split <;> rfl

theorem lookup_remove (m : KeyMap κ V) (a k : κ) :
    (m.remove a).lookup k = if k = a then none else m.lookup k := by
  unfold lookup
  rw [get?_remove]
  split <;> rfl

theorem lookup_foldl_remove (ks : List κ) (m : KeyMap κ V) (k : κ) :
    (ks.foldl remove m).lookup k = if k ∈ ks then none else m.lookup k := by
  induction ks generalizing m with
  | nil => simp
  | cons a ks ih =>
    rw [List.foldl_cons, ih, lookup_remove]
    by_cases hk : k ∈ ks <;> by_cases ha : k = a <;> simp [hk, ha]

theorem lookup_mapValues (m : KeyMap κ V) (f : V → V) (k : κ) :
    (m.mapValues f).lookup k = (m.lookup k).map f := by
  apply Option.ext
  intro v
  rw [lookup_eq_some, mapValues, Option.map_eq_some_iff]
  simp only [List.mem_map, Prod.mk.injEq, lookup_eq_some]
  constructor
  · rintro ⟨⟨k', v'⟩, hmem, rfl, rfl⟩
    exact ⟨v', hmem, rfl⟩
  · rintro ⟨v', hmem, rfl⟩
    exact ⟨(k, v'), hmem, rfl, rfl⟩

theorem contains_iff_lookup (m : KeyMap κ V) (k : κ) : m.contains k = true ↔ m.lookup k ≠ none := by
  rw [contains, get?_eq_lookup, Option.isSome_map, Option.isSome_iff_ne_none]

theorem len_put (m : KeyMap κ V) (k : κ) (v : V) :
    (m.put k v).len = if m.contains k = true then m.len else m.len + 1 := by
  split <;> rename_i h
  · have hkeys : ((m.put k v).keys).Perm m.keys := by
      refine (List.perm_ext_iff_of_nodup (nodup _) (nodup _)).mpr fun k' => ?_
      show k' ∈ (m.put k v).keys ↔ k' ∈ m.keys
      rw [← contains_iff, ← contains_iff, contains_iff_lookup, lookup_put]
      split <;> rename_i hk
      · simp [hk, h]
      · rw [contains_iff_lookup]
    simpa [keys, len] using hkeys.length_eq
  · have helems : (m.put k v).elems = (k, v) :: m.elems := elems_put (by simpa using h)
    simp [len, helems]

end KeySet

end Kollaps
