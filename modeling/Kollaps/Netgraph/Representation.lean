import Kollaps.Netgraph.Paths
import Kollaps.Common.Serialize

/-!
# The two views of a link

A link compares by its vertices and hashes by its internal indices, and a network addresses it
by the indices of its mapper. The mapper travels as a map from the indices to the vertices.
-/

namespace Kollaps

open Run

/-! ## Equality and hash -/

namespace Link

variable {T : Type} [Vertex T]

def eq (l other : Link T) : Bool :=
  (Vertex.id l.source = Vertex.id other.source ∧ Vertex.id l.destination = Vertex.id other.destination) ∨
    (Vertex.id l.destination = Vertex.id other.source ∧ Vertex.id l.source = Vertex.id other.destination)

/-- The pair that `Link::hash` gives to the hasher. -/
def hashed (l : Link T) : Nat × Nat :=
  if l.internalSource > l.internalDestination then (l.internalDestination, l.internalSource)
  else (l.internalSource, l.internalDestination)

theorem eq_iff_key {l other : Link T} : l.eq other = true ↔ l.key = other.key := by
  rw [eq, decide_eq_true_iff, key, key, Sym2.eq_iff]
  tauto

omit [Vertex T] in
theorem hashed_eq (l : Link T) :
    l.hashed = (min l.internalSource l.internalDestination, max l.internalSource l.internalDestination) := by
  unfold hashed
  split
  · rw [min_eq_right (by omega), max_eq_left (by omega)]
  · rw [min_eq_left (by omega), max_eq_right (by omega)]

omit [Vertex T] in
theorem hashed_congr {l other : Link T}
    (h : s(l.internalSource, l.internalDestination) = s(other.internalSource, other.internalDestination)) :
    l.hashed = other.hashed := by
  rw [hashed_eq, hashed_eq]
  rcases Sym2.eq_iff.mp h with ⟨h1, h2⟩ | ⟨h1, h2⟩
  · rw [h1, h2]
  · rw [h1, h2, min_comm, max_comm]

end Link

/-! ## The mapper as a text -/

namespace Mapper

variable {T : Type} [Vertex T]

/-- The entries that `Mapper::serialize` gives: the index is the key. -/
def entries (it : Iter) (m : Mapper T) : List (Nat × T) := (it.order m.elems).map fun p => (p.2, p.1)

def serialize [Serde (List (Nat × T))] (it : Iter) (m : Mapper T) : String := Serde.toJson (m.entries it)

/-- Adds each entry in reverse. -/
def visitMap (access : List (Nat × T)) : Mapper T :=
  access.foldl (fun map entry => map.put entry.2 entry.1) KeySet.empty

def deserialize [Serde (List (Nat × T))] (text : String) : Run (Mapper T) :=
  visitMap <$> Kollaps.deserialize text

theorem visitMap_entries (it : Iter) (m : Mapper T) : (visitMap (m.entries it)).elems.Perm m.elems := by
  have hfold : visitMap (m.entries it) =
      (it.order m.elems).foldl (fun map p => map.put p.1 p.2) KeySet.empty := by
    rw [visitMap, entries, List.foldl_map]
  have hkeys : ((it.order m.elems).map fun p => Vertex.id p.1).Nodup :=
    ((it.perm m.elems).map _).nodup_iff.mpr m.nodup
  rw [hfold]
  refine (KeySet.elems_foldl_put Vertex.id (m := KeySet.empty) ?_).trans ?_
  · simpa [KeySet.keys] using hkeys
  · simpa using it.perm m.elems

theorem deserialize_serialize [Serde (List (Nat × T))] {it : Iter} {m : Mapper T}
    (h : Restored (m.entries it)) :
    Returns (deserialize (m.serialize it)) fun m' => m'.Same m := by
  unfold deserialize serialize
  rw [deserialize_toJson h]
  exact ⟨_, rfl, KeySet.same_of_perm (visitMap_entries it m)⟩

end Mapper

namespace Network

variable {T : Type} [Vertex T]

theorem Shaped.mapper_lt {g : Network T} (h : g.Shaped) {p : T × Nat} (hp : p ∈ g.mapper.elems) :
    p.2 < g.links.n :=
  h.map_lt p.1 p.2 (map_eq_some.mpr ⟨p, hp, rfl, rfl⟩)

theorem Shaped.mapper_inj {g : Network T} (h : g.Shaped) {p q : T × Nat} (hp : p ∈ g.mapper.elems)
    (hq : q ∈ g.mapper.elems) (he : p.2 = q.2) : p = q := by
  apply g.mapper.eq_of_key_eq hp hq
  exact h.map_inj p.1 q.1 q.2 (map_eq_some.mpr ⟨p, hp, rfl, he⟩) (map_eq_some.mpr ⟨q, hq, rfl, rfl⟩)

theorem mapTwo_same {g : Network T} {m : Mapper T} (h : m.Same g.mapper) (a b : T) :
    ({ g with mapper := m } : Network T).mapTwo a b = g.mapTwo a b := by
  simp only [mapTwo, map, h _]

def Stored (g : Network T) (i j : Nat) (l : Link T) : Prop :=
  i < g.links.n ∧ j < g.links.n ∧ g.links.index i j = .ok (some l)

theorem Stored.entry {g : Network T} {i j : Nat} {l : Link T} (h : g.Stored i j l) :
    g.links.entry i j = some l := by
  obtain ⟨hi, hj, hl⟩ := h
  rw [g.links.index_eq hi hj] at hl
  exact Except.ok.inj hl

theorem Stored.eq_iff {g : Network T} (hg : g.Shaped) {i j i' j' : Nat} {l l' : Link T}
    (h : g.Stored i j l) (h' : g.Stored i' j' l') : l.eq l' = true ↔ s(i, j) = s(i', j') := by
  rw [Link.eq_iff_key]
  constructor
  · exact hg.key_inj h.1 h.2.1 h'.1 h'.2.1 h.entry h'.entry
  · intro hs
    have hentry : g.links.entry i' j' = g.links.entry i j := by
      rcases Sym2.eq_iff.mp hs with ⟨rfl, rfl⟩ | ⟨rfl, rfl⟩
      · rfl
      · exact g.links.entry_comm _ _
    have hl := h'.entry
    rw [hentry, h.entry] at hl
    rw [Option.some.inj hl]

/-- The vertices, the links and the text of the mapper always agree. -/
theorem representation {g : Network T} (hb : g.Built) [Serde (List (Nat × T))] (it : Iter)
    (hserde : Restored (g.mapper.entries it)) :
    ((∀ p ∈ g.mapper.elems, p.2 < g.links.n) ∧
      ∀ p ∈ g.mapper.elems, ∀ q ∈ g.mapper.elems, p.2 = q.2 → p = q) ∧
    (∀ i j l, g.Stored i j l → s(l.internalSource, l.internalDestination) = s(i, j) ∧
      g.map l.source = some l.internalSource ∧ g.map l.destination = some l.internalDestination) ∧
    (∀ i j l i' j' l', g.Stored i j l → g.Stored i' j' l' →
      (l.eq l' = true → l.hashed = l'.hashed) ∧ (s(i, j) ≠ s(i', j') → l.eq l' = false)) ∧
    Returns (Mapper.deserialize (g.mapper.serialize it)) fun m =>
      (∀ k, m.get? k = g.mapper.get? k) ∧
        ∀ a b, ({ g with mapper := m } : Network T).mapTwo a b = g.mapTwo a b := by
  have hg := hb.wf.shaped
  have hends : ∀ i j l, g.Stored i j l → s(l.internalSource, l.internalDestination) = s(i, j) ∧
      g.map l.source = some l.internalSource ∧ g.map l.destination = some l.internalDestination :=
    fun i j l h => hg.ends i j l h.1 h.2.1 h.entry
  refine ⟨⟨fun p => hg.mapper_lt, fun p hp q => hg.mapper_inj hp⟩, hends, ?_, ?_⟩
  · intro i j l i' j' l' h h'
    refine ⟨fun he => ?_, fun hne => ?_⟩
    · apply Link.hashed_congr
      rw [(hends i j l h).1, (hends i' j' l' h').1]
      exact (h.eq_iff hg h').mp he
    · rw [Bool.eq_false_iff]
      exact mt (h.eq_iff hg h').mp hne
  · exact (Mapper.deserialize_serialize hserde).mono fun m hm => ⟨hm, mapTwo_same hm⟩

section

/-- `serde_json` on the vertices 7 and 9. -/
local instance : Serde (List (Nat × Nat)) :=
  ⟨fun entries => if entries = [(1, 9), (0, 7)] then "\x7b\"1\":9,\"0\":7\x7d" else "",
    fun text => if text = "\x7b\"1\":9,\"0\":7\x7d" then some [(1, 9), (0, 7)] else none⟩

theorem demo_representation : Returns (withLinks .shortestPath [7, 9] [(9, 7, 100)]) fun g =>
    (∀ i j l, g.Stored i j l → s(l.internalSource, l.internalDestination) = s(i, j)) ∧
    Returns (Mapper.deserialize (g.mapper.serialize Iter.inOrder)) fun m =>
      ∀ k, m.get? k = g.mapper.get? k := by
  obtain ⟨g, hg, hentries⟩ : Returns (withLinks .shortestPath [7, 9] [(9, 7, 100)]) fun g =>
      g.mapper.entries Iter.inOrder = [(1, 9), (0, 7)] := by decide +kernel
  have hserde : Restored (g.mapper.entries Iter.inOrder) := by
    rw [hentries]
    exact ⟨by decide, by decide⟩
  obtain ⟨-, hends, -, hmap⟩ := representation (withLinks_built hg (by decide)) Iter.inOrder hserde
  exact ⟨g, hg, fun i j l h => (hends i j l h).1, hmap.mono fun m hm => hm.1⟩

end

end Network

end Kollaps
