import Kollaps.Netgraph.Optimal

/-!
# Which of the shortest paths

Among shortest paths `shortest_path` takes the one that, seen from the far end, always goes to
the neighbour of least index. The order of the queue decides this: vertices leave it in the
order of their distances, and at one distance in the order of their indices. The two ends of
a path see different paths, and their bandwidths can differ.
-/

namespace Kollaps

open Run

/-! ## The order of the queue -/

theorem Pair.before_iff {a b : Pair} :
    a.before b = true ↔ a.val < b.val ∨ (a.val = b.val ∧ a.node < b.node) := by
  unfold Pair.before
  simp

theorem Pair.before_trans {a b c : Pair} (h : a.before b = true) (h' : b.before c = true) :
    a.before c = true := by
  rw [before_iff] at *
  omega

theorem Pair.before_of_ne {a b : Pair} (hne : a ≠ b) (h : ¬ b.before a = true) :
    a.before b = true := by
  have hparts : ¬ (a.val = b.val ∧ a.node = b.node) := by
    rintro ⟨hv, hn⟩
    cases a
    cases b
    simp_all
  rw [before_iff] at *
  omega

theorem foldl_best_least (ps : List Pair) (p : Pair) :
    ∀ q ∈ p :: ps, ¬ q.before (ps.foldl (fun b q => if q.before b then q else b) p) = true := by
  induction ps generalizing p with
  | nil => simp [Pair.before_iff]
  | cons q ps ih =>
    rw [List.foldl_cons]
    have hbest := ih (if q.before p then q else p)
    generalize ps.foldl _ _ = best at hbest ⊢
    have hfirst := hbest _ List.mem_cons_self
    intro x hx
    rcases List.mem_cons.mp hx with rfl | hx
    · split at hfirst <;> rename_i hq
      · exact fun h => hfirst (Pair.before_trans hq h)
      · exact hfirst
    · rcases List.mem_cons.mp hx with rfl | hx
      · split at hfirst <;> rename_i hq
        · exact hfirst
        · rw [Pair.before_iff] at *
          omega
      · exact hbest x (List.mem_cons_of_mem _ hx)

theorem heapPop_least {l rest : List Pair} {p : Pair} (h : heapPop l = some (p, rest)) :
    ∀ q ∈ l, ¬ q.before p = true := by
  cases l with
  | nil => cases h
  | cons q l =>
    simp only [heapPop, Option.some.injEq, Prod.mk.injEq] at h
    obtain ⟨rfl, -⟩ := h
    exact foldl_best_least l q

namespace Network

variable {T : Type} [Vertex T] {g : Network T}

/-- The vertices in `done` have left the queue, in order. Each parent came first of all the
neighbours that have left it. -/
structure Ordered (g : Network T) (done : List Nat) (s : Search) : Prop where
  queued : ∀ q ∈ s.toVisit, s.val.getD q.node none = some q.val ∧ q.node ∉ done
  nodup : s.toVisit.Nodup
  labelled : ∀ v d, s.val.getD v none = some d → v ∈ done ∨ ⟨v, d⟩ ∈ s.toVisit
  passed : ∀ u ∈ done, ∃ d, s.val.getD u none = some d ∧
    ∀ q ∈ s.toVisit, (⟨u, d⟩ : Pair).before q = true
  parent : ∀ v p, s.parents.getD v none = some p → p ∈ done ∧ ∃ d, s.val.getD p none = some d ∧
    s.val.getD v none = some (d + 1) ∧ ∀ u ∈ done, ∀ d', s.val.getD u none = some d' →
      g.adj u v = true → ¬ (⟨u, d'⟩ : Pair).before ⟨p, d⟩ = true

theorem Ordered.label {done : List Nat} {s : Search} (hO : g.Ordered done s) {x : Nat} (hx : x ∈ done) :
    ∃ e, s.val.getD x none = some e :=
  (hO.passed x hx).imp fun _ h => h.1

theorem Ordered.label_le {src u w d dw : Nat} {pending : Nat → Nat → Prop} {done : List Nat}
    {s : Search} (hI : g.SearchInv src pending s) (hO : g.Ordered done s)
    (hlast : ∀ x ∈ done, ∀ e, s.val.getD x none = some e → ¬ (⟨u, d⟩ : Pair).before ⟨x, e⟩ = true)
    (hold : s.val.getD w none = some dw) : dw ≤ d + 1 := by
  by_cases hsrc : w = src
  · subst hsrc
    rw [hI.source, Option.some.injEq] at hold
    omega
  · obtain ⟨p, hp⟩ := hI.has_parent w dw hold hsrc
    obtain ⟨hpd, dp, hdp, hdw, -⟩ := hO.parent w p hp
    have hpu := hlast p hpd dp hdp
    rw [hold, Option.some.injEq] at hdw
    rw [Pair.before_iff] at hpu
    simp only at hpu
    omega

theorem Ordered.discover {src u w d : Nat} {pending : Nat → Nat → Prop} {done : List Nat}
    {s : Search} (hI : g.SearchInv src pending s) (hO : g.Ordered done s) (hud : u ∈ done)
    (hu : s.val.getD u none = some d)
    (hlast : ∀ x ∈ done, ∀ e, s.val.getD x none = some e → ¬ (⟨u, d⟩ : Pair).before ⟨x, e⟩ = true)
    (hpend : ∀ x y, pending x y → x = u) (hw : w < g.links.n) (hold : s.val.getD w none = none) :
    g.Ordered done ⟨s.val.set w (some (d + 1)), s.parents.set w (some u), ⟨w, d + 1⟩ :: s.toVisit⟩ ∧
      ∀ x ∈ done, (s.val.set w (some (d + 1))).getD x none = s.val.getD x none := by
  have hwl : w < s.val.length := by rw [hI.val_length]; exact hw
  have hwp : w < s.parents.length := by rw [hI.parents_length]; exact hw
  have hval : ∀ j, (s.val.set w (some (d + 1))).getD j none =
      if j = w then some (d + 1) else s.val.getD j none := fun j => getD_set _ _ _ _ _ hwl
  have hpar : ∀ j, (s.parents.set w (some u)).getD j none =
      if j = w then some u else s.parents.getD j none := fun j => getD_set _ _ _ _ _ hwp
  have hnew : ∀ x e, s.val.getD x none = some e → x ≠ w := by
    rintro x e he rfl
    rw [hold] at he
    cases he
  have hkeep : ∀ x e, s.val.getD x none = some e →
      (s.val.set w (some (d + 1))).getD x none = some e := by
    intro x e he
    rw [hval, if_neg (hnew x e he)]
    exact he
  refine ⟨⟨?_, ?_, ?_, ?_, ?_⟩, ?_⟩
  · -- queued
    intro q hq
    rcases List.mem_cons.mp hq with rfl | hq
    · refine ⟨by rw [hval, if_pos rfl], fun hmem => ?_⟩
      obtain ⟨e, he⟩ := hO.label hmem
      exact hnew w e he rfl
    · exact ⟨hkeep _ _ (hO.queued q hq).1, (hO.queued q hq).2⟩
  · -- nodup
    refine List.nodup_cons.mpr ⟨fun hmem => ?_, hO.nodup⟩
    exact hnew w _ (hO.queued _ hmem).1 rfl
  · -- labelled
    intro v e he
    rw [hval] at he
    split at he <;> rename_i hv
    · cases he
      subst hv
      exact Or.inr List.mem_cons_self
    · exact (hO.labelled v e he).imp_right (List.mem_cons_of_mem _)
  · -- passed
    intro x hx
    obtain ⟨e, he, hall⟩ := hO.passed x hx
    refine ⟨e, hkeep x e he, fun q hq => ?_⟩
    rcases List.mem_cons.mp hq with rfl | hq
    · have hxu := hlast x hx e he
      rw [Pair.before_iff] at *
      simp only at hxu ⊢
      omega
    · exact hall q hq
  · -- parent
    intro v p hp
    rw [hpar] at hp
    split at hp <;> rename_i hv
    · cases hp
      subst hv
      refine ⟨hud, d, hkeep u d hu, by rw [hval, if_pos rfl], fun x hx e he hxv => ?_⟩
      -- Another vertex that has left the queue would have labelled it.
      have hxu : x = u := by
        obtain ⟨e', he'⟩ := hO.label hx
        rcases hI.relaxed x e' v he' hw hxv with h | h | ⟨dv, hdv, -⟩
        · exact absurd hx (hO.queued _ h).2
        · exact hpend x v h
        · exact absurd rfl (hnew v dv hdv)
      subst hxu
      rw [hkeep x d hu, Option.some.injEq] at he
      rw [he, Pair.before_iff]
      simp
    · obtain ⟨hpd, dp, hdp, hdv, hall⟩ := hO.parent v p hp
      refine ⟨hpd, dp, hkeep p dp hdp, hkeep v _ hdv, fun x hx e he hxv => ?_⟩
      obtain ⟨e', he'⟩ := hO.label hx
      rw [hkeep x e' he', Option.some.injEq] at he
      exact hall x hx e (he ▸ he') hxv
  · intro x hx
    obtain ⟨e, he⟩ := hO.label hx
    rw [hkeep x e he, he]

theorem shortestRelax_ordered {src u w d : Nat} {pending : Nat → Nat → Prop} {done : List Nat}
    {s : Search} (hI : g.SearchInv src pending s) (hO : g.Ordered done s) (hud : u ∈ done)
    (hu : s.val.getD u none = some d)
    (hlast : ∀ x ∈ done, ∀ e, s.val.getD x none = some e → ¬ (⟨u, d⟩ : Pair).before ⟨x, e⟩ = true)
    (hpend : ∀ x y, pending x y → x = u) (hw : w < g.links.n) :
    Returns (shortestRelax u s w) fun s' => g.Ordered done s' ∧
      ∀ x ∈ done, s'.val.getD x none = s.val.getD x none := by
  have hwl : w < s.val.length := by rw [hI.val_length]; exact hw
  unfold shortestRelax
  rw [get_getD none (lt_of_label hu), hu]
  simp only [bind_ok, unwrap_some]
  rw [get_getD none hwl, bind_ok]
  cases hold : s.val.getD w none with
  | some dw =>
    have hnot : shorter (d + 1) (some dw) = false := by
      simpa [shorter] using hO.label_le hI hlast hold
    simp only [hnot, Bool.false_eq_true, if_false, returns_pure]
    exact ⟨hO, by simp⟩
  | none =>
    simp only [shorter, if_true]
    rw [set_eq hwl, bind_ok, set_eq (by rw [hI.parents_length]; exact hw), bind_ok, returns_pure]
    exact hO.discover hI hud hu hlast hpend hw hold

theorem Ordered.pop {done : List Nat} {s : Search} {vert : Pair} (hO : g.Ordered done s)
    (hmem : vert ∈ s.toVisit) (hleast : ∀ q ∈ s.toVisit, ¬ q.before vert = true) :
    g.Ordered (vert.node :: done) { s with toVisit := s.toVisit.erase vert } := by
  have hne : ∀ q ∈ s.toVisit.erase vert, q ≠ vert := fun q hq => (hO.nodup.mem_erase_iff.mp hq).1
  have hvert := (hO.queued vert hmem).1
  refine ⟨fun q hq => ?_, hO.nodup.erase vert, fun v d hd => ?_, fun u hu => ?_, fun v p hp => ?_⟩
  · obtain ⟨hq', hdone⟩ := hO.queued q (List.mem_of_mem_erase hq)
    refine ⟨hq', fun hmem' => ?_⟩
    rcases List.mem_cons.mp hmem' with hnode | hmem'
    · rw [hnode, hvert, Option.some.injEq] at hq'
      apply hne q hq
      cases q
      cases vert
      simp_all
    · exact hdone hmem'
  · rcases hO.labelled v d hd with h | h
    · exact Or.inl (List.mem_cons_of_mem _ h)
    · by_cases hv : (⟨v, d⟩ : Pair) = vert
      · subst hv
        exact Or.inl List.mem_cons_self
      · exact Or.inr ((List.mem_erase_of_ne hv).mpr h)
  · rcases List.mem_cons.mp hu with rfl | hu
    · exact ⟨vert.val, hvert, fun q hq =>
        Pair.before_of_ne (hne q hq).symm (hleast q (List.mem_of_mem_erase hq))⟩
    · obtain ⟨d, hd, hall⟩ := hO.passed u hu
      exact ⟨d, hd, fun q hq => hall q (List.mem_of_mem_erase hq)⟩
  · obtain ⟨hpd, d, hd, hdv, hall⟩ := hO.parent v p hp
    refine ⟨List.mem_cons_of_mem _ hpd, d, hd, hdv, fun u hu d' hd' hadj => ?_⟩
    rcases List.mem_cons.mp hu with rfl | hu
    · obtain ⟨e, he, hbefore⟩ := hO.passed p hpd
      rw [hd, Option.some.injEq] at he
      rw [hvert, Option.some.injEq] at hd'
      have hpv := hbefore vert hmem
      rw [Pair.before_iff] at *
      simp only at hpv ⊢
      omega
    · exact hall u hu d' hd' hadj

def LeastParents (g : Network T) (val parents : List (Option Nat)) : Prop :=
  ∀ v p, parents.getD v none = some p → ∀ u d, val.getD u none = some d →
    val.getD v none = some (d + 1) → g.adj u v = true → p ≤ u

theorem Ordered.leastParents {done : List Nat} {s : Search} (hO : g.Ordered done s)
    (hempty : s.toVisit = []) :
    g.LeastParents s.val s.parents := by
  have hdone : ∀ v d, s.val.getD v none = some d → v ∈ done := fun v d hd =>
    (hO.labelled v d hd).resolve_right (by simp [hempty])
  intro v p hp u d hd hdv hadj
  obtain ⟨-, dp, -, hdv', hall⟩ := hO.parent v p hp
  have hbefore := hall u (hdone u d hd) d hd hadj
  rw [hdv, Option.some.injEq] at hdv'
  rw [Pair.before_iff] at hbefore
  simp only at hbefore
  omega

theorem Ordered.last {done : List Nat} {s : Search} {vert : Pair} (hO : g.Ordered done s)
    (hmem : vert ∈ s.toVisit) {x e : Nat} (hx : x ∈ vert.node :: done) (he : s.val.getD x none = some e) :
    ¬ (⟨vert.node, vert.val⟩ : Pair).before ⟨x, e⟩ = true := by
  rcases List.mem_cons.mp hx with rfl | hx
  · rw [(hO.queued vert hmem).1, Option.some.injEq] at he
    rw [he, Pair.before_iff]
    simp
  · obtain ⟨e', he', hall⟩ := hO.passed x hx
    rw [he, Option.some.injEq] at he'
    have hxv := hall vert hmem
    rw [Pair.before_iff] at *
    simp only at hxv ⊢
    omega

theorem shortestRound_ordered {src : Nat} {done : List Nat} {s : Search}
    (hI : g.SearchInv src (fun _ _ => False) s) (hO : g.Ordered done s) :
    Returns (g.shortestRound s) fun r => match r with
      | .inl s' => ∃ done', g.Ordered done' s'
      | .inr r => g.LeastParents r.1 r.2 := by
  unfold shortestRound
  cases hpop : heapPop s.toVisit with
  | none =>
    simp only [returns_pure]
    exact hO.leastParents (heapPop_eq_none.mp hpop)
  | some r =>
    obtain ⟨vert, rest⟩ := r
    obtain ⟨hmem, rfl⟩ := heapPop_spec hpop
    obtain ⟨hlabel, -⟩ := hO.queued vert hmem
    obtain ⟨hlt, -⟩ := hI.queue vert hmem
    simp only
    rw [get_getD none (by rw [hI.val_length]; exact hlt), hlabel, bind_ok, unwrap_some, bind_ok,
      if_neg (lt_irrefl _), neighbours_eq g hlt, bind_ok]
    have hstart := (hI.pop hlabel).mono fun x _ _ _ h => h.1
    have hpopped := hO.pop hmem (heapPop_least hpop)
    refine Returns.bind (Returns.foldlM_inv (f := shortestRelax vert.node)
      (fun s' => g.SearchInv src (fun x _ => x = vert.node) s' ∧ g.Ordered (vert.node :: done) s' ∧
        ∀ x ∈ vert.node :: done, s'.val.getD x none = s.val.getD x none)
      ⟨hstart, hpopped, fun _ _ => rfl⟩ ?_) fun s' h => ?_
    · rintro w hw s' ⟨hI', hO', hsame⟩
      rw [List.mem_filter, List.mem_range] at hw
      have hlabel' : s'.val.getD vert.node none = some vert.val := by
        rw [hsame _ List.mem_cons_self, hlabel]
      have hspec := shortestRelax_spec hI' hlabel' hw.1 hw.2
      have hordered := shortestRelax_ordered hI' hO' List.mem_cons_self hlabel'
        (fun x hx e he => hO.last hmem hx (by rw [← hsame x hx, he])) (fun _ _ h => h) hw.1
      refine (hspec.and hordered).mono fun s'' h => ⟨h.1.1.mono fun _ _ _ _ hxy => hxy.1, h.2.1, ?_⟩
      intro x hx
      rw [h.2.2 x hx, hsame x hx]
    · rw [returns_pure]
      exact ⟨_, h.2.1⟩

theorem shortestPath_least {src : Nat} (hsrc : src < g.links.n) {r : List (Option Nat) × List (Option Nat)}
    (h : g.shortestPath src = .ok r) : g.LeastParents r.1 r.2 := by
  rw [g.shortestPath_eq hsrc] at h
  refine loop_ok_inv (fun s => g.SearchInv src (fun _ _ => False) s ∧ ∃ done, g.Ordered done s)
    (fun r => g.LeastParents r.1 r.2) ⟨g.searchStart_inv hsrc, [], ?_⟩ ?_ ?_ h
  · have hlen : src < (List.replicate g.links.n (none : Option Nat)).length := by simpa using hsrc
    have hval : ∀ v, (searchStart g.links.n src).val.getD v none = if v = src then some 0 else none := by
      intro v
      rw [searchStart, getD_set _ _ _ _ _ hlen, getD_replicate_none]
    refine ⟨fun q hq => ?_, by simp [searchStart], fun v d hd => ?_, by simp, fun v p hp => ?_⟩
    · rw [searchStart, List.mem_singleton] at hq
      subst hq
      exact ⟨by rw [hval, if_pos rfl], by simp⟩
    · rw [hval] at hd
      split at hd <;> rename_i hv
      · cases hd
        subst hv
        exact Or.inr (by simp [searchStart])
      · cases hd
    · rw [searchStart, getD_replicate_none] at hp
      cases hp
  · rintro s s' ⟨hI, done, hO⟩ hs
    exact ⟨((shortestRound_spec hI).of_eq hs).1, (shortestRound_ordered hI hO).of_eq hs⟩
  · rintro s r ⟨hI, done, hO⟩ hs
    exact (shortestRound_ordered hI hO).of_eq hs

/-! ## The path of least indices -/

def nearer (g : Network T) (i v : Fin g.links.n) : Set (Fin g.links.n) :=
  {x | g.graph.Adj v x ∧ g.graph.dist x i + 1 = g.graph.dist v i}

/-- A walk that at each vertex goes to the nearer neighbour of least index. -/
def LeastIndices {i j : Fin g.links.n} (p : g.graph.Walk j i) : Prop :=
  ∀ d ∈ p.darts, IsLeast (g.nearer i d.fst) d.snd

theorem LeastIndices.tail {i j k : Fin g.links.n} {h : g.graph.Adj k j} {p : g.graph.Walk j i}
    (hp : LeastIndices (.cons h p)) : LeastIndices p :=
  fun d hd => hp d (List.mem_cons_of_mem _ hd)

theorem LeastIndices.unique {i j : Fin g.links.n} {p q : g.graph.Walk j i} (hp : LeastIndices p)
    (hq : LeastIndices q) : p = q := by
  induction p with
  | nil =>
    cases q with
    | nil => rfl
    | cons h q =>
      have hstep := (hq ⟨(_, _), h⟩ (by simp)).1.2
      simp at hstep
  | @cons v w i h p ih =>
    cases q with
    | nil =>
      have hstep := (hp ⟨(_, _), h⟩ (by simp)).1.2
      simp at hstep
    | @cons _ w' _ h' q =>
      obtain rfl : w = w' := (hp ⟨(v, w), h⟩ (by simp)).unique (hq ⟨(v, w'), h'⟩ (by simp))
      rw [ih hp.tail hq.tail]

/-- The route of a shortest path query is the path of least indices. -/
theorem leastIndices_routeFrom (hs : g.pathStrategy = .shortestPath) {i j : Fin g.links.n}
    (hr : g.graph.Reachable j i) :
    ∃ p : g.graph.Walk j i, LeastIndices p ∧ g.routeFrom i j = stepsOf p := by
  obtain ⟨r, hpath, -, hchain, -⟩ := g.routeFrom_spec i.isLt j.isLt
  have hsearch : g.shortestPath i = .ok r := by rw [← hpath, pathBetween, hs]
  have htree := (g.shortestPath_spec i.isLt).of_eq hsearch
  have hleast := shortestPath_least i.isLt hsearch
  obtain ⟨d, hd⟩ := Option.ne_none_iff_exists'.mp (mt htree.dist_eq_none.mp (not_not.mpr hr))
  obtain ⟨p, hp⟩ := htree.follows hd
  refine ⟨p, ?_, hchain.unique hp.2⟩
  have hdist : ∀ v : Fin g.links.n, g.graph.Reachable v i →
      r.1.getD v none = some (g.graph.dist v i) := by
    intro v hv
    obtain ⟨e, he⟩ := Option.ne_none_iff_exists'.mp (mt htree.dist_eq_none.mp (not_not.mpr hv))
    rw [he, htree.dist_eq he]
  suffices hall : ∀ (v : Fin g.links.n) (q : g.graph.Walk v i), IsChain r.2 v (stepsOf q) →
      LeastIndices q from hall j p hp.2
  clear hp hd hr hchain p j
  intro v q hq
  induction q with
  | nil => intro d hd; simp at hd
  | @cons v w i h q ih =>
    obtain ⟨-, hv, hrest⟩ := hq
    have hpar : r.2.getD v none = some w.val := by
      rw [List.getD_eq_getElem?_getD, hv, Option.getD_some]
    have hreach : g.graph.Reachable v i := ⟨.cons h q⟩
    obtain ⟨-, -, -, e, he, hev⟩ := htree.parent v w hpar
    rw [hdist w ⟨q⟩, Option.some.injEq] at he
    rw [hdist v hreach, Option.some.injEq] at hev
    intro d hd
    rcases List.mem_cons.mp hd with rfl | hd
    · refine ⟨⟨h, by simp only; omega⟩, fun x hx => ?_⟩
      obtain ⟨hadj, hx⟩ := hx
      have hxi : g.graph.Reachable x i := hadj.symm.reachable.trans hreach
      have hle := hleast v w hpar x (g.graph.dist x i) (hdist x hxi)
        (by rw [hdist v hreach]; simp only at hx ⊢; rw [hx])
        ((g.adj_symm x v).trans hadj)
      exact hle
    · exact ih hpath hsearch htree hdist hrest d hd

/-! ## The two directions -/

/-- The paths of least indices from either end have the same least bandwidth. -/
def Balanced (g : Network T) (i j : Fin g.links.n) : Prop :=
  ∀ (p : g.graph.Walk j i) (q : g.graph.Walk i j), LeastIndices p → LeastIndices q →
    ∃ w, g.LeastOn p w ∧ g.LeastOn q w

theorem mapTwo_swap {a b : T} {i j : Nat} (h : g.mapTwo a b = some (i, j)) :
    g.mapTwo b a = some (j, i) := by
  obtain ⟨ha, hb⟩ := mapTwo_eq_some.mp h
  exact mapTwo_eq_some.mpr ⟨hb, ha⟩

theorem bandwidthBetween_least (hg : g.Shaped) (hs : g.pathStrategy = .shortestPath) {a b : T}
    {i j : Fin g.links.n} (hm : g.mapTwo a b = some (i.val, j.val)) (hij : i ≠ j)
    (hr : g.graph.Reachable j i) : ∃ p : g.graph.Walk j i, LeastIndices p ∧
      g.bandwidthBetween a b = .ok (some (PathWidth.width g.weight u32Max p)) := by
  obtain ⟨p, hp, hsteps⟩ := leastIndices_routeFrom hs hr
  refine ⟨p, hp, ?_⟩
  have hne : g.routeFrom i j ≠ [] := fun h =>
    ((routeOf_routeFrom i j).eq_nil_iff hij).mp h hr
  rw [bandwidthBetween_eq hg hm hij, route_eq hm, if_neg hne, bottleneck, cells, route_eq hm, hsteps,
    foldl_stepsOf]

theorem bandwidthBetween_unreachable (hg : g.Shaped) {a b : T} {i j : Fin g.links.n}
    (hm : g.mapTwo a b = some (i.val, j.val)) (hij : i ≠ j) (hr : ¬ g.graph.Reachable j i) :
    g.bandwidthBetween a b = .ok none := by
  rw [bandwidthBetween_eq hg hm hij, route_eq hm, if_pos (((routeOf_routeFrom i j).eq_nil_iff hij).mpr hr)]

theorem bandwidthBetween_symm_iff (hg : g.Shaped) (hs : g.pathStrategy = .shortestPath) {a b : T}
    {i j : Fin g.links.n} (hm : g.mapTwo a b = some (i.val, j.val)) (hij : i ≠ j) :
    g.bandwidthBetween a b = g.bandwidthBetween b a ↔ g.Balanced i j := by
  by_cases hr : g.graph.Reachable j i
  · obtain ⟨p, hp, hab⟩ := bandwidthBetween_least hg hs hm hij hr
    obtain ⟨q, hq, hba⟩ := bandwidthBetween_least hg hs (mapTwo_swap hm) hij.symm hr.symm
    have hpw := leastOn_width hg hij.symm p
    have hqw := leastOn_width hg hij q
    rw [hab, hba, Except.ok.injEq, Option.some.injEq]
    constructor
    · intro heq p' q' hp' hq'
      rw [hp'.unique hp, hq'.unique hq]
      exact ⟨_, hpw, heq ▸ hqw⟩
    · intro hbal
      obtain ⟨w, h1, h2⟩ := hbal p q hp hq
      rw [hpw.unique h1, hqw.unique h2]
  · rw [bandwidthBetween_unreachable hg hm hij hr,
      bandwidthBetween_unreachable hg (mapTwo_swap hm) hij.symm (mt SimpleGraph.Reachable.symm hr)]
    exact iff_of_true rfl fun p => absurd ⟨p⟩ hr

end Network

end Kollaps
