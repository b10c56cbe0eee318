import Kollaps.Orchestrator.Runs

/-!
# What was there, what is left and what is taken

The ledger of a run says which emulations were placed and which of their apps still run. What two
running apps on different hosts ask for is taken. A stop gives it back, and gives back again what an
earlier stop gave back, unless that was nothing.
-/

namespace Kollaps

open Run

namespace Cell

variable {i j : Nat} {α : Type}

theorem total_filter (q : α → Bool) (f : α → Cell) (l : List α) : total i j (l.map f) =
    total i j ((l.filter q).map f) + total i j ((l.filter fun a => !q a).map f) := by
  induction l with
  | nil => rfl
  | cons a l ih =>
    rw [List.map_cons, total_cons, ih]
    cases hq : q a
    · rw [List.filter_cons_of_neg (by simp [hq]), List.filter_cons_of_pos (by simp [hq]),
        List.map_cons, total_cons]
      omega
    · rw [List.filter_cons_of_pos (by simp [hq]), List.filter_cons_of_neg (by simp [hq]),
        List.map_cons, total_cons]
      omega

theorem total_eq_zero {cells : List Cell} : total i j cells = 0 ↔ ∀ c ∈ cells, c.On i j → c.amount = 0 := by
  induction cells with
  | nil => simp
  | cons c cells ih =>
    rw [total_cons, Nat.add_eq_zero_iff, ih, List.forall_mem_cons]
    by_cases hc : c.On i j <;> simp [hc]

end Cell

namespace Orchestrator

variable {matrix : SymMatrix Nat} {p : List Nat}

/-- No two apps of `pairs` on different hosts ask for bandwidth between them. -/
def NoneApart (matrix : SymMatrix Nat) (p : List Nat) (pairs : List (Nat × Nat)) : Prop :=
  ∀ pair ∈ pairs, p.getD pair.1 0 ≠ p.getD pair.2 0 → matrix.entry pair.1 pair.2 = 0

theorem noneApart_iff {n : Nat} {pairs : List (Nat × Nat)} (hlt : ∀ h ∈ p, h < n)
    (hpairs : ∀ pair ∈ pairs, pair.1 < p.length ∧ pair.2 < p.length) :
    NoneApart matrix p pairs ↔
      ∀ i j, i < n → j < n → i ≠ j → Cell.total i j (pairs.map (cellOf matrix p)) = 0 := by
  simp only [Cell.total_eq_zero, List.forall_mem_map]
  constructor
  · intro hnone i j _ _ hne pair hpair hon
    refine hnone pair hpair fun hsame => hne ?_
    rcases hon with ⟨rfl, rfl⟩ | ⟨rfl, rfl⟩
    · exact hsame
    · exact hsame.symm
  · intro hzero pair hpair hne
    have hwithin : Cell.Within n (pairs.map (cellOf matrix p)) := within_map hlt hpairs
    obtain ⟨hrow, hcol⟩ := hwithin _ (List.mem_map_of_mem hpair)
    exact hzero _ _ hrow hcol hne pair hpair (Cell.on_self _)

/-! ## The pairs of one app -/

def runningPairs (n : Nat) (stopped : List Nat) : List (Nat × Nat) :=
  (pairsBelow n).filter fun pair => pair.1 ∉ stopped ∧ pair.2 ∉ stopped

def amountOn (matrix : SymMatrix Nat) (p : List Nat) (host other i j : Nat) : Nat :=
  if (cellOf matrix p (i, j)).On host other then matrix.entry i j else 0

theorem amountOn_comm (host other i j : Nat) :
    amountOn matrix p host other i j = amountOn matrix p host other j i := by
  refine if_congr ?_ (matrix.entry_comm i j) rfl
  simp only [cellOf, Cell.On]
  tauto

theorem total_map {host other : Nat} (pairs : List (Nat × Nat)) :
    Cell.total host other (pairs.map (cellOf matrix p)) =
    (pairs.map fun pair => amountOn matrix p host other pair.1 pair.2).sum := by
  rw [total_eq_sum, List.map_map]
  rfl

theorem sum_map_filter {α : Type} (q : α → Bool) (f : α → Nat) (l : List α) :
    ((l.filter q).map f).sum = (l.map fun a => if q a = true then f a else 0).sum := by
  induction l with
  | nil => rfl
  | cons a l ih => cases hq : q a <;> simp [hq, ih]

/-- The pairs of an app, each once: those below it in its row, the others in its column. -/
theorem sum_pairsBelow_app {f : Nat → Nat → Nat} (hf : ∀ i j, f i j = f j i) (n app : Nat) :
    ∑ i ∈ Finset.range n, ∑ j ∈ Finset.range i, (if i = app ∨ j = app then f i j else 0) =
      if app < n then ∑ i ∈ Finset.range n, (if i ≠ app then f app i else 0) else 0 := by
  induction n with
  | zero => rfl
  | succ n ih =>
    rw [Finset.sum_range_succ, ih]
    rcases Nat.lt_trichotomy app n with hlt | rfl | hgt
    · have hrow : ∑ j ∈ Finset.range n, (if n = app ∨ j = app then f n j else 0) = f app n := by
        rw [Finset.sum_eq_single app]
        · rw [if_pos (Or.inr rfl), hf]
        · intro j _ hj
          rw [if_neg (by omega)]
        · intro hnot
          exact absurd (Finset.mem_range.mpr hlt) hnot
      rw [hrow, if_pos hlt, if_pos (by omega), Finset.sum_range_succ, if_pos (by omega)]
    · rw [if_neg (by omega), if_pos (by omega), Nat.zero_add, Finset.sum_range_succ,
        if_neg (by simp), Nat.add_zero]
      refine Finset.sum_congr rfl fun j hj => ?_
      rw [Finset.mem_range] at hj
      rw [if_pos (Or.inl rfl), if_pos (by omega)]
    · rw [if_neg (by omega), if_neg (by omega), Nat.zero_add]
      refine Finset.sum_eq_zero fun j hj => ?_
      rw [Finset.mem_range] at hj
      rw [if_neg (by omega)]

theorem total_running {host other n : Nat} (stopped : List Nat) :
    Cell.total host other ((runningPairs n stopped).map (cellOf matrix p)) =
      ∑ i ∈ Finset.range n, ∑ j ∈ Finset.range i,
        if i ∉ stopped ∧ j ∉ stopped then amountOn matrix p host other i j else 0 := by
  rw [total_map, runningPairs, sum_map_filter, sum_pairsBelow]
  simp only [decide_eq_true_eq]

theorem total_running_stop {host other n app : Nat} {stopped : List Nat} (happ : app < n)
    (hfirst : app ∉ stopped) :
    Cell.total host other ((runningPairs n stopped).map (cellOf matrix p)) =
      Cell.total host other ((runningPairs n (app :: stopped)).map (cellOf matrix p)) +
        Cell.total host other
          (((pairsOf n app).filter fun pair => pair.2 ∉ stopped).map (cellOf matrix p)) := by
  have hpairs :
    Cell.total host other (((pairsOf n app).filter fun pair => pair.2 ∉ stopped).map (cellOf matrix p)) =
      ∑ i ∈ Finset.range n, if i ≠ app then
        (if app ∉ stopped ∧ i ∉ stopped then amountOn matrix p host other app i else 0) else 0 := by
    rw [total_map, pairsOf, List.filter_map, List.map_map, List.filter_filter, sum_filter_range]
    refine Finset.sum_congr rfl fun i _ => ?_
    by_cases hi : i = app <;> by_cases hs : i ∈ stopped <;> simp [hi, hs, hfirst]
  have happly := sum_pairsBelow_app (f := fun i j =>
    if i ∉ stopped ∧ j ∉ stopped then amountOn matrix p host other i j else 0) (fun i j =>
      if_congr and_comm (amountOn_comm host other i j) rfl) n app
  rw [if_pos happ] at happly
  rw [hpairs, ← happly, total_running, total_running, ← Finset.sum_add_distrib]
  refine Finset.sum_congr rfl fun i _ => ?_
  rw [← Finset.sum_add_distrib]
  refine Finset.sum_congr rfl fun j _ => ?_
  by_cases hi : i = app <;> by_cases hj : j = app <;> simp [hi, hj]

/-! ## The ledger -/

/-- An emulation of a run: what its apps ask for, the places of their hosts, and which have stopped. -/
structure Account where
  matrix : SymMatrix Nat
  hosts : List Nat
  deployment : Deployment

namespace Account

def stop (a : Account) (app : Nat) : Account := { a with deployment := a.deployment.stop app }

def taken (a : Account) (host other : Nat) : Nat :=
  Cell.total host other ((runningPairs a.matrix.n a.deployment.stopped).map (cellOf a.matrix a.hosts))

end Account

structure Ledger where
  orchestrator : Orchestrator
  accounts : UuidMap Account

inductive Call
  | newEmulation (it : Iter) (network : Network Node) (id : Uuid)
  | stopEmulation (id : Uuid)
  | stopApp (id : Uuid) (node : ClusterNodeInfo) (app : Nat)

namespace Ledger

def taken (l : Ledger) (host other : Nat) : Nat := l.accounts.sumBy fun a => a.taken host other

/-- One call. An app stops once, with its own host and index. -/
inductive Step (ar : Arith) (l : Ledger) : Call → Ledger → Prop
  | placed {it : Iter} {network : Network Node} {id : Uuid} {o : Orchestrator}
      {r : Network Node × List ClusterNodeInfo} {matrix : SymMatrix Nat} {p : List Nat}
      {places : List ClusterNodeInfo} (hfresh : l.accounts.lookup id = none)
      (h : l.orchestrator.newEmulation ar it network id = .ok (o, some r))
      (hstored : o.emulations.lookup id = some (matrix, p)) (hplaces : o.Places p places) :
      Step ar l (.newEmulation it network id) ⟨o, l.accounts.put id ⟨matrix, p, ⟨places, []⟩⟩⟩
  | refused {it : Iter} {network : Network Node} {id : Uuid} {o : Orchestrator}
      (h : l.orchestrator.newEmulation ar it network id = .ok (o, none)) :
      Step ar l (.newEmulation it network id) ⟨o, l.accounts⟩
  | failed {it : Iter} {network : Network Node} {id : Uuid} {message : String}
      (h : l.orchestrator.newEmulation ar it network id = .error (.err message)) :
      Step ar l (.newEmulation it network id) l
  | stopped {id : Uuid} {o : Orchestrator} (h : l.orchestrator.stopEmulation ar id = .ok o) :
      Step ar l (.stopEmulation id) ⟨o, l.accounts.remove id⟩
  | stopUnknown {id : Uuid} {message : String}
      (h : l.orchestrator.stopEmulation ar id = .error (.err message)) :
      Step ar l (.stopEmulation id) ⟨l.orchestrator, l.accounts.remove id⟩
  | appStopped {id : Uuid} {a : Account} {app : Nat} {node : ClusterNodeInfo} {o : Orchestrator}
      (ha : l.accounts.lookup id = some a) (hnode : a.deployment.places[app]? = some node)
      (hfirst : app ∉ a.deployment.stopped) (h : l.orchestrator.stopAppEmulationOn ar id node app = .ok o) :
      Step ar l (.stopApp id node app) ⟨o, l.accounts.put id (a.stop app)⟩
  | appStopFailed {id : Uuid} {a : Account} {app : Nat} {node : ClusterNodeInfo} {message : String}
      (ha : l.accounts.lookup id = some a) (hnode : a.deployment.places[app]? = some node)
      (hfirst : app ∉ a.deployment.stopped)
      (h : l.orchestrator.stopAppEmulationOn ar id node app = .error (.err message)) :
      Step ar l (.stopApp id node app) ⟨l.orchestrator, l.accounts.put id (a.stop app)⟩
  | appUnknown {id : Uuid} {app : Nat} {node : ClusterNodeInfo} {message : String}
      (ha : l.accounts.lookup id = none)
      (h : l.orchestrator.stopAppEmulationOn ar id node app = .error (.err message)) :
      Step ar l (.stopApp id node app) l

/-- The runs whose calls all meet a condition in the state before. -/
inductive Runs (ar : Arith) (ok : Ledger → Call → Prop) (l₀ : Ledger) : Ledger → Prop
  | start : Runs ar ok l₀ l₀
  | step {l l' : Ledger} {call : Call} (h : Runs ar ok l₀ l) (hok : ok l call) (hs : Step ar l call l') :
      Runs ar ok l₀ l'

/-! ## The accounts are the tables -/

/-- The accounts and the tables of the orchestrator say the same. -/
structure Books (o₀ : Orchestrator) (l : Ledger) : Prop where
  cluster : SameCluster o₀ l.orchestrator
  size : l.orchestrator.residualGraph.n = o₀.residualGraph.n
  accounted : l.orchestrator.Accounted
  shaped : ∀ u a, l.accounts.lookup u = some a → a.hosts.length = a.matrix.n ∧
    (∀ h ∈ a.hosts, h < o₀.residualGraph.n) ∧ l.orchestrator.Places a.hosts a.deployment.places
  known : ∀ u matrix p, l.orchestrator.emulations.lookup u = some (matrix, p) →
    ∃ deployment, l.accounts.lookup u = some ⟨matrix, p, deployment⟩
  idle : ∀ u h, l.accounts.lookup u = none → l.orchestrator.loadOf h u = none
  load : ∀ u a h, l.accounts.lookup u = some a → l.orchestrator.loadOf h u = a.deployment.load h

variable {ar : Arith} {o₀ : Orchestrator} {l l' : Ledger}

theorem Books.live (hl : Books o₀ l) {id : Uuid} {a : Account} (ha : l.accounts.lookup id = some a)
    {host : ClusterNodeInfo} {app : Nat} (hrunning : app ∈ a.deployment.running host) :
    l.orchestrator.emulations.lookup id = some (a.matrix, a.hosts) := by
  have hload : l.orchestrator.loadOf host id ≠ none := by
    rw [hl.load id a host ha]
    exact Deployment.load_ne_none hrunning
  obtain ⟨n, hn⟩ := Option.ne_none_iff_exists'.mp hload
  have hregistered := hl.accounted.attributed host id (hl.accounted.loaded host id n hn).2
  obtain ⟨⟨matrix, p⟩, hemulation⟩ := Option.ne_none_iff_exists'.mp hregistered
  obtain ⟨deployment, hknown⟩ := hl.known id matrix p hemulation
  rw [ha] at hknown
  cases hknown
  exact hemulation

theorem Books.new {it : Iter} {cgraph : Cgraph.CGraph ClusterNodeInfo} {port maxLoad : Nat}
    (h : Orchestrator.new it cgraph port maxLoad = .ok o₀) : Books o₀ ⟨o₀, KeySet.empty⟩ := by
  have haccounted := new_accounted h
  unfold Orchestrator.new at h
  obtain ⟨⟨residualGraph, hostMapping⟩, -, h⟩ := of_bind_eq_ok h
  cases h
  exact
    { cluster := ⟨rfl, rfl, rfl⟩
      size := rfl
      accounted := haccounted
      shaped := fun u a ha => by cases ha
      known := fun u matrix p h => by cases h
      idle := fun _ _ _ => rfl
      load := fun u a h ha => by cases ha }

theorem Books.places_congr {o : Orchestrator} (hmap : o.hostMapping = l.orchestrator.hostMapping)
    {p : List Nat}
    {places : List ClusterNodeInfo} (h : l.orchestrator.Places p places) : o.Places p places :=
  h.congr fun i node hi => by rwa [hmap]

/-- What the books say of one emulation: its account is what is stored for it and what it loads. -/
structure Booked (o₀ o : Orchestrator) (id : Uuid) (account : Option Account) : Prop where
  shaped : ∀ a, account = some a → a.hosts.length = a.matrix.n ∧
    (∀ h ∈ a.hosts, h < o₀.residualGraph.n) ∧ o.Places a.hosts a.deployment.places
  known : ∀ matrix p, o.emulations.lookup id = some (matrix, p) →
    ∃ deployment, account = some ⟨matrix, p, deployment⟩
  idle : ∀ h, account = none → o.loadOf h id = none
  load : ∀ a h, account = some a → o.loadOf h id = a.deployment.load h

theorem Books.change {o : Orchestrator} {accounts : UuidMap Account} (hl : Books o₀ l) (id : Uuid)
    (hcluster : SameCluster l.orchestrator o) (hsize : o.residualGraph.n = l.orchestrator.residualGraph.n)
    (haccounted : o.Accounted) (haccounts : ∀ u, u ≠ id → accounts.lookup u = l.accounts.lookup u)
    (hemulations : ∀ u, u ≠ id → o.emulations.lookup u = l.orchestrator.emulations.lookup u)
    (hload : ∀ u h, u ≠ id → o.loadOf h u = l.orchestrator.loadOf h u)
    (hid : Booked o₀ o id (accounts.lookup id)) : Books o₀ ⟨o, accounts⟩ := by
  have hall : ∀ u, Booked o₀ o u (accounts.lookup u) := by
    intro u
    by_cases hu : u = id
    · rw [hu]
      exact hid
    · rw [haccounts u hu]
      refine
        { shaped := fun a ha => ?_
          known := fun matrix p h => hl.known u matrix p (hemulations u hu ▸ h)
          idle := fun h hnone => (hload u h hu).trans (hl.idle u h hnone)
          load := fun a h ha => (hload u h hu).trans (hl.load u a h ha) }
      obtain ⟨hlen, hlt, hplaces⟩ := hl.shaped u a ha
      exact ⟨hlen, hlt, places_congr hcluster.hostMapping hplaces⟩
  exact
    { cluster := ⟨hcluster.hostMapping.trans hl.cluster.hostMapping,
      hcluster.maxLoad.trans hl.cluster.maxLoad,
        hcluster.emanagersPort.trans hl.cluster.emanagersPort⟩
      size := hsize.trans hl.size
      accounted := haccounted
      shaped := fun u => (hall u).shaped
      known := fun u => (hall u).known
      idle := fun u => (hall u).idle
      load := fun u => (hall u).load }

theorem Books.placed {it : Iter} {id : Uuid} {o : Orchestrator} {matrix : SymMatrix Nat} {p : List Nat}
    {places : List ClusterNodeInfo} (hl : Books o₀ l) (hfresh : l.accounts.lookup id = none)
    (h : Placed ar it l.orchestrator id matrix p places o) :
    Books o₀ ⟨o, l.accounts.put id ⟨matrix, p, ⟨places, []⟩⟩⟩ := by
  refine hl.change id h.cluster h.size (h.accounted hl.accounted)
    (fun u hu => by rw [KeySet.lookup_put, if_neg hu])
    (fun u hu => by rw [h.emulations, KeySet.lookup_put, if_neg hu])
    (fun u x hu => by rw [h.loadOf, if_neg (fun hand => hu hand.1)]) ?_
  rw [KeySet.lookup_put, if_pos rfl]
  refine
    { shaped := fun a ha => ?_
      known := fun matrix' p' hu => ?_
      idle := fun x hnone => by cases hnone
      load := fun a x ha => ?_ }
  · cases ha
    exact ⟨h.found.length, fun x hx => hl.size ▸ h.found.lt x hx,
      places_congr h.cluster.hostMapping h.located⟩
  · rw [h.emulations, KeySet.lookup_put, if_pos rfl] at hu
    cases hu
    exact ⟨_, rfl⟩
  · cases ha
    exact h.load_new (hl.idle id x hfresh)

theorem Booked.gone {id : Uuid} {o : Orchestrator} (hemulation : o.emulations.lookup id = none)
    (hload : ∀ h, o.loadOf h id = none) : Booked o₀ o id none where
  shaped := fun a ha => by cases ha
  known := fun matrix p h => by rw [hemulation] at h; cases h
  idle := fun h _ => hload h
  load := fun a h ha => by cases ha

theorem Books.stopped {id : Uuid} {o : Orchestrator} {matrix : SymMatrix Nat} {p : List Nat} (hl : Books o₀ l)
    (h : Stopped ar l.orchestrator id matrix p o) : Books o₀ ⟨o, l.accounts.remove id⟩ := by
  refine hl.change id h.cluster h.size (h.accounted hl.accounted)
    (fun u hu => by rw [KeySet.lookup_remove, if_neg hu])
    (fun u hu => by rw [h.emulations, KeySet.lookup_remove, if_neg hu])
    (fun u x hu => by rw [h.loadOf, if_neg hu]) ?_
  rw [KeySet.lookup_remove, if_pos rfl]
  refine Booked.gone ?_ fun x => ?_
  · rw [h.emulations, KeySet.lookup_remove, if_pos rfl]
  · rw [h.loadOf, if_pos rfl]

theorem Books.stopUnknown {id : Uuid} (hl : Books o₀ l) (h : l.orchestrator.emulations.lookup id = none) :
    Books o₀ ⟨l.orchestrator, l.accounts.remove id⟩ := by
  refine hl.change id ⟨rfl, rfl, rfl⟩ rfl hl.accounted
    (fun u hu => by rw [KeySet.lookup_remove, if_neg hu]) (fun _ _ => rfl) (fun _ _ _ => rfl) ?_
  rw [KeySet.lookup_remove, if_pos rfl]
  exact Booked.gone h fun x => (hl.accounted.idle h x).1

theorem Books.appStopped {id : Uuid} {a : Account} {app : Nat} {node : ClusterNodeInfo} {o : Orchestrator}
    {matrix : SymMatrix Nat} {p : List Nat} (hl : Books o₀ l) (ha : l.accounts.lookup id = some a)
    (hnode : a.deployment.places[app]? = some node) (hfirst : app ∉ a.deployment.stopped)
    (h : AppStopped ar l.orchestrator id node app matrix p o) :
    Books o₀ ⟨o, l.accounts.put id (a.stop app)⟩ := by
  refine hl.change id h.cluster h.size (h.accounted hl.accounted)
    (fun u hu => by rw [KeySet.lookup_put, if_neg hu]) (fun u hu => h.lookup_other hu)
    (fun u x hu => by rw [h.loadOf, if_neg (fun hand => hu hand.2)]) ?_
  rw [KeySet.lookup_put, if_pos rfl]
  refine
    { shaped := fun b hb => ?_
      known := fun matrix' p' hu => ?_
      idle := fun x hnone => by cases hnone
      load := fun b x hb => ?_ }
  · cases hb
    obtain ⟨hlen, hlt, hplaces⟩ := hl.shaped id a ha
    exact ⟨hlen, hlt, places_congr h.cluster.hostMapping hplaces⟩
  · obtain ⟨deployment, hknown⟩ := hl.known id matrix' p' (h.lookup_of_lookup hu)
    rw [ha] at hknown
    cases hknown
    exact ⟨_, rfl⟩
  · cases hb
    exact h.load_less hnode hfirst (hl.load id a x ha)

theorem Books.stopApp_known {id : Uuid} {a : Account} {app : Nat} {node : ClusterNodeInfo} {message : String}
    (hl : Books o₀ l) (ha : l.accounts.lookup id = some a) (hnode : a.deployment.places[app]? = some node)
    (hfirst : app ∉ a.deployment.stopped) :
    l.orchestrator.stopAppEmulationOn ar id node app ≠ .error (.err message) := by
  intro h
  have hnone := stopAppEmulationOn_err h
  rw [hl.live ha (Deployment.mem_running.mpr ⟨hnode, hfirst⟩)] at hnone
  cases hnone

theorem Books.step {call : Call} (hl : Books o₀ l) (hs : Step ar l call l') : Books o₀ l' := by
  cases hs with
  | placed hfresh h hstored hplaces => exact hl.placed hfresh (newEmulation_stored h hstored hplaces).2
  | refused h =>
    rw [newEmulation_none h]
    exact hl
  | failed | appUnknown => exact hl
  | stopped h =>
    obtain ⟨matrix, p, hstopped⟩ := stopEmulation_ok h
    exact hl.stopped hstopped
  | stopUnknown h => exact hl.stopUnknown (stopEmulation_err h)
  | appStopped ha hnode hfirst h =>
    obtain ⟨matrix, p, hstopped⟩ := stopAppEmulationOn_ok h
    exact hl.appStopped ha hnode hfirst hstopped
  | appStopFailed ha hnode hfirst h => exact absurd h (hl.stopApp_known ha hnode hfirst)

/-! ## Conservation -/

/-- Between two hosts, what is left and what is taken is what there was. -/
def Conserved (o₀ : Orchestrator) (l : Ledger) : Prop :=
  ∀ i j, i < o₀.residualGraph.n → j < o₀.residualGraph.n → i ≠ j →
    l.orchestrator.residualGraph.entry i j + l.taken i j = o₀.residualGraph.entry i j

/-- A stop gives back no bandwidth of an app that has stopped before. -/
def Settles (l : Ledger) : Call → Prop
  | .newEmulation _ _ _ => True
  | .stopEmulation id => ∀ a, l.accounts.lookup id = some a → l.orchestrator.emulations.lookup id ≠ none →
      NoneApart a.matrix a.hosts ((pairsBelow a.matrix.n).filter fun pair =>
        pair.1 ∈ a.deployment.stopped ∨ pair.2 ∈ a.deployment.stopped)
  | .stopApp id _ app => ∀ a, l.accounts.lookup id = some a →
      NoneApart a.matrix a.hosts ((pairsOf a.matrix.n app).filter fun pair => pair.2 ∈ a.deployment.stopped)

theorem taken_put {id : Uuid} {a b : Account} {o : Orchestrator}
    (ha : l.accounts.lookup id = some a) (i j : Nat) :
    (⟨o, l.accounts.put id b⟩ : Ledger).taken i j + a.taken i j = l.taken i j + b.taken i j := by
  have hchange := KeySet.sumBy_change (fun a : Account => a.taken i j) l.accounts
    (l.accounts.put id b) (k := id) fun u hu => by rw [KeySet.lookup_put, if_neg hu]
  rwa [ha, KeySet.lookup_put, if_pos rfl] at hchange

theorem taken_new {id : Uuid} {b : Account} {o : Orchestrator}
    (hfresh : l.accounts.lookup id = none) (i j : Nat) :
    (⟨o, l.accounts.put id b⟩ : Ledger).taken i j = l.taken i j + b.taken i j := by
  have hchange := KeySet.sumBy_change (fun a : Account => a.taken i j) l.accounts
    (l.accounts.put id b) (k := id) fun u hu => by rw [KeySet.lookup_put, if_neg hu]
  rwa [hfresh, KeySet.lookup_put, if_pos rfl] at hchange

theorem taken_remove (l : Ledger) (id : Uuid) (o : Orchestrator) (i j : Nat) :
    (⟨o, l.accounts.remove id⟩ : Ledger).taken i j +
    ((l.accounts.lookup id).map fun a => a.taken i j).getD 0 =
      l.taken i j := by
  have hchange := KeySet.sumBy_change (fun a : Account => a.taken i j) l.accounts
    (l.accounts.remove id) (k := id) fun u hu => by rw [KeySet.lookup_remove, if_neg hu]
  rwa [KeySet.lookup_remove, if_pos rfl] at hchange

end Ledger

theorem Account.taken_of_stopped {a : Account} (h : ∀ app < a.matrix.n, app ∈ a.deployment.stopped)
    (i j : Nat) :
    a.taken i j = 0 := by
  have hnil : runningPairs a.matrix.n a.deployment.stopped = [] := by
    rw [runningPairs, List.filter_eq_nil_iff]
    intro pair hpair
    have hstopped := h pair.1 (mem_pairsBelow.mp hpair).1
    simp [hstopped]
  rw [taken, hnil]
  rfl

theorem Account.taken_new {i j : Nat} (hne : i ≠ j) (places : List ClusterNodeInfo) :
    (⟨matrix, p, ⟨places, []⟩⟩ : Account).taken i j = Cell.total i j
    ((apart matrix.n p).map (cellOf matrix p)) := by
  have hall : runningPairs matrix.n [] = pairsBelow matrix.n := by
    rw [runningPairs, List.filter_eq_self]
    simp
  rw [taken, hall, total_apart hne]

namespace Ledger

variable {ar : Arith} {o₀ : Orchestrator} {l l' : Ledger}

theorem Books.all_stopped (hl : Books o₀ l) {id : Uuid} {a : Account} (ha : l.accounts.lookup id = some a)
    (h : l.orchestrator.emulations.lookup id = none) : ∀ app < a.matrix.n, app ∈ a.deployment.stopped := by
  intro app happ
  by_contra hrunning
  obtain ⟨hlen, -, hplaces⟩ := hl.shaped id a ha
  have hlt : app < a.deployment.places.length := by
    rw [← hplaces.length_eq, hlen]
    exact happ
  have hlive := hl.live ha (Deployment.mem_running.mpr ⟨List.getElem?_eq_getElem hlt, hrunning⟩)
  rw [h] at hlive
  cases hlive

theorem Books.conserved_placed (har : ar ≠ .wrapping) {it : Iter} {id : Uuid} {o : Orchestrator}
    {places : List ClusterNodeInfo} (hl : Books o₀ l) (hc : Conserved o₀ l)
    (hfresh : l.accounts.lookup id = none) (h : Placed ar it l.orchestrator id matrix p places o) :
    Conserved o₀ ⟨o, l.accounts.put id ⟨matrix, p, ⟨places, []⟩⟩⟩ := by
  intro i j hi hj hne
  have hentry := h.residual har (hl.size ▸ hi) (hl.size ▸ hj)
  have hbefore := hc i j hi hj hne
  rw [taken_new hfresh, Account.taken_new hne]
  simp only
  omega

/-- A step that gives back more than it takes away keeps the balance when the surplus is nothing. -/
theorem conserved_iff_of_surplus {pairs : List (Nat × Nat)} (hc : Conserved o₀ l)
    (hlt : ∀ h ∈ p, h < o₀.residualGraph.n) (hpairs : ∀ pair ∈ pairs, pair.1 < p.length ∧ pair.2 < p.length)
    (hsurplus : ∀ i j, i < o₀.residualGraph.n → j < o₀.residualGraph.n → i ≠ j →
      l'.orchestrator.residualGraph.entry i j + l'.taken i j =
        l.orchestrator.residualGraph.entry i j + l.taken i j + Cell.total i j (pairs.map (cellOf matrix p))) :
    Conserved o₀ l' ↔ NoneApart matrix p pairs := by
  rw [noneApart_iff hlt hpairs]
  refine forall₂_congr fun i j => forall₃_congr fun hi hj hne => ?_
  rw [hsurplus i j hi hj hne, hc i j hi hj hne]
  exact Nat.add_eq_left

theorem Books.conserved_stopped_iff (har : ar ≠ .wrapping) {id : Uuid} {a : Account} {o : Orchestrator}
    (hl : Books o₀ l) (hc : Conserved o₀ l) (ha : l.accounts.lookup id = some a)
    (h : Stopped ar l.orchestrator id a.matrix a.hosts o) :
    Conserved o₀ ⟨o, l.accounts.remove id⟩ ↔
      NoneApart a.matrix a.hosts ((pairsBelow a.matrix.n).filter fun pair =>
        pair.1 ∈ a.deployment.stopped ∨ pair.2 ∈ a.deployment.stopped) := by
  obtain ⟨hlen, hlt, -⟩ := hl.shaped id a ha
  refine conserved_iff_of_surplus hc hlt (fun pair hpair => ?_) fun i j hi hj _ => ?_
  · have hbelow := mem_pairsBelow.mp (List.mem_filter.mp hpair).1
    omega
  · have hreleased := h.released
    rw [releaseAll_eq hlen] at hreleased
    have hwithin : Cell.Within l.orchestrator.residualGraph.n (cellsOf (a.matrix, a.hosts)) :=
      cellsOf_within hlen (hl.size ▸ hlt)
    have hentry := SymMatrix.addAll_entry har hwithin hreleased (hl.size ▸ hi) (hl.size ▸ hj)
    have htaken := taken_remove l id o i j
    rw [ha, Option.map_some, Option.getD_some, Account.taken] at htaken
    have hsplit := Cell.total_filter (i := i) (j := j) (fun pair : Nat × Nat =>
      decide (pair.1 ∉ a.deployment.stopped ∧ pair.2 ∉ a.deployment.stopped)) (cellOf a.matrix a.hosts)
      (pairsBelow a.matrix.n)
    have hrest : (pairsBelow a.matrix.n).filter (fun pair =>
        !decide (pair.1 ∉ a.deployment.stopped ∧ pair.2 ∉ a.deployment.stopped)) =
          (pairsBelow a.matrix.n).filter fun pair =>
            pair.1 ∈ a.deployment.stopped ∨ pair.2 ∈ a.deployment.stopped := by
      refine List.filter_congr fun pair _ => ?_
      rw [← decide_not, decide_eq_decide]
      tauto
    rw [hrest] at hsplit
    rw [cellsOf] at hentry
    rw [runningPairs] at htaken
    simp only at hentry hsplit htaken ⊢
    omega

theorem Books.conserved_appStopped_iff (har : ar ≠ .wrapping) {id : Uuid} {a : Account} {app : Nat}
    {node : ClusterNodeInfo} {o : Orchestrator} (hl : Books o₀ l) (hc : Conserved o₀ l)
    (ha : l.accounts.lookup id = some a) (hnode : a.deployment.places[app]? = some node)
    (hfirst : app ∉ a.deployment.stopped) (h : AppStopped ar l.orchestrator id node app a.matrix a.hosts o) :
    Conserved o₀ ⟨o, l.accounts.put id (a.stop app)⟩ ↔
      NoneApart a.matrix a.hosts
        ((pairsOf a.matrix.n app).filter fun pair => pair.2 ∈ a.deployment.stopped) := by
  obtain ⟨hlen, hlt, hplaces⟩ := hl.shaped id a ha
  have happ : app < a.matrix.n := by
    rw [← hlen, hplaces.length_eq]
    exact (List.getElem?_eq_some_iff.mp hnode).1
  have hpairs : ∀ pair ∈ pairsOf a.matrix.n app, pair.1 < a.hosts.length ∧ pair.2 < a.hosts.length := by
    intro pair hpair
    obtain ⟨rfl, hother, -⟩ := mem_pairsOf.mp hpair
    omega
  refine conserved_iff_of_surplus hc hlt (fun pair hpair => hpairs pair (List.mem_filter.mp hpair).1)
    fun i j hi hj _ => ?_
  have hreleased := h.released
  rw [releaseApp_eq hlen happ] at hreleased
  have hentry := SymMatrix.addAll_entry har (within_map (hl.size ▸ hlt) hpairs) hreleased (hl.size ▸ hi)
    (hl.size ▸ hj)
  have htaken := taken_put (l := l) (o := o) (b := a.stop app) ha i j
  have hstop : a.taken i j = (a.stop app).taken i j + _ := total_running_stop happ hfirst
  have hsplit := Cell.total_filter (i := i) (j := j) (fun pair : Nat × Nat =>
    decide (pair.2 ∉ a.deployment.stopped)) (cellOf a.matrix a.hosts) (pairsOf a.matrix.n app)
  simp only [decide_not, Bool.not_not] at hsplit hstop
  simp only at hentry htaken ⊢
  omega

/-- What a step does to the balance: it stays, unless a stop gives back what was given back before. -/
theorem Step.conserved_iff (har : ar ≠ .wrapping) {call : Call} (hl : Books o₀ l) (hc : Conserved o₀ l)
    (hs : Step ar l call l') : Conserved o₀ l' ↔ l.Settles call := by
  cases hs with
  | placed hfresh h hstored hplaces =>
    exact iff_of_true (hl.conserved_placed har hc hfresh (newEmulation_stored h hstored hplaces).2) trivial
  | refused h =>
    rw [newEmulation_none h]
    exact iff_of_true hc trivial
  | failed => exact iff_of_true hc trivial
  | appUnknown ha =>
    refine iff_of_true hc fun a hsome => ?_
    rw [ha] at hsome
    cases hsome
  | @stopped id o h =>
    obtain ⟨matrix, p, hstopped⟩ := stopEmulation_ok h
    obtain ⟨deployment, ha⟩ := hl.known id matrix p hstopped.emulation
    rw [hl.conserved_stopped_iff har hc ha hstopped]
    constructor
    · intro hnone b hb _
      rw [ha] at hb
      cases hb
      exact hnone
    · intro hsettles
      exact hsettles _ ha (by rw [hstopped.emulation]; exact Option.some_ne_none _)
  | @stopUnknown id message h =>
    have hnone := stopEmulation_err h
    refine iff_of_true (fun i j hi hj hne => ?_) fun a _ hne => absurd hnone hne
    have htaken := taken_remove l id l.orchestrator i j
    have hzero : ((l.accounts.lookup id).map fun a => a.taken i j).getD 0 = 0 := by
      cases ha : l.accounts.lookup id with
      | none => rfl
      | some a => exact Account.taken_of_stopped (hl.all_stopped ha hnone) i j
    rw [hzero, Nat.add_zero] at htaken
    rw [htaken]
    exact hc i j hi hj hne
  | @appStopped id a app node o ha hnode hfirst h =>
    obtain ⟨matrix, p, hstopped⟩ := stopAppEmulationOn_ok h
    obtain ⟨deployment, hknown⟩ := hl.known id matrix p hstopped.emulation
    rw [ha] at hknown
    cases hknown
    rw [hl.conserved_appStopped_iff har hc ha hnode hfirst hstopped]
    constructor
    · intro hnone b hb
      rw [ha] at hb
      cases hb
      exact hnone
    · intro hsettles
      exact hsettles _ ha
  | appStopFailed ha hnode hfirst h => exact absurd h (hl.stopApp_known ha hnode hfirst)

theorem Runs.books {ok : Ledger → Call → Prop} (hl : Books o₀ l) (h : Runs ar ok l l') : Books o₀ l' := by
  induction h with
  | start => exact hl
  | step _ _ hs ih => exact ih.step hs

/-- In a run whose stops give nothing back twice, what is left between two hosts and what the
running apps take is what there was at the start. Apps that have all stopped take nothing. -/
theorem conservation {it : Iter} {cgraph : Cgraph.CGraph ClusterNodeInfo} {port maxLoad : Nat}
    (har : ar ≠ .wrapping) (hnew : Orchestrator.new it cgraph port maxLoad = .ok o₀)
    (h : Runs ar Settles ⟨o₀, KeySet.empty⟩ l) :
    (∀ i j, i < o₀.residualGraph.size → j < o₀.residualGraph.size → i ≠ j →
      l.orchestrator.residualGraph.entry i j + l.taken i j = o₀.residualGraph.entry i j) ∧
    ∀ id a, l.accounts.lookup id = some a → (∀ app < a.matrix.n, app ∈ a.deployment.stopped) →
      ∀ i j, a.taken i j = 0 := by
  refine ⟨?_, fun id a _ hall => Account.taken_of_stopped hall⟩
  induction h with
  | start => exact fun i j _ _ _ => Nat.add_zero _
  | step h hok hs ih => exact (hs.conserved_iff har (h.books (.new hnew)) ih).mpr hok

theorem lookup_put_self {α : Type} (m : UuidMap α) (id : Uuid) (a : α) : (m.put id a).lookup id = some a := by
  rw [KeySet.lookup_put, if_pos rfl]

theorem step_placed {it : Iter} {network : Network Node} {id : Uuid} {o : Orchestrator}
    {r : Network Node × List ClusterNodeInfo} {places : List ClusterNodeInfo}
    (hfresh : l.accounts.lookup id = none)
    (h : l.orchestrator.newEmulation ar it network id = .ok (o, some r))
    (hstored : o.emulations.lookup id = some (matrix, p)) (hplaces : o.Places p places) :
    ∃ l', Step ar l (.newEmulation it network id) l' ∧ l'.orchestrator = o ∧
      l'.accounts.lookup id = some ⟨matrix, p, ⟨places, []⟩⟩ ∧
      ∀ i j, l'.taken i j = l.taken i j + (⟨matrix, p, ⟨places, []⟩⟩ : Account).taken i j :=
  ⟨_, .placed hfresh h hstored hplaces, rfl, lookup_put_self _ _ _, taken_new hfresh⟩

theorem step_appStopped {id : Uuid} {a : Account} {app : Nat} {node : ClusterNodeInfo} {o : Orchestrator}
    (ha : l.accounts.lookup id = some a) (hnode : a.deployment.places[app]? = some node)
    (hfirst : app ∉ a.deployment.stopped) (h : l.orchestrator.stopAppEmulationOn ar id node app = .ok o) :
    ∃ l', Step ar l (.stopApp id node app) l' ∧ l'.orchestrator = o ∧
      l'.accounts.lookup id = some (a.stop app) ∧
      ∀ i j, l'.taken i j + a.taken i j = l.taken i j + (a.stop app).taken i j :=
  ⟨_, .appStopped ha hnode hfirst h, rfl, lookup_put_self _ _ _, taken_put ha⟩

theorem demo_places {o : Orchestrator} (h : o.hostMapping = [demoHost 0, demoHost 1]) :
    o.Places [0, 1] [demoHost 0, demoHost 1] := by
  unfold Places
  rw [h]
  exact .cons rfl (.cons rfl .nil)

theorem conservation_demo : ∃ (o₀ : Orchestrator) (l : Ledger), Runs .checked Settles ⟨o₀, KeySet.empty⟩ l ∧
    l.accounts.lookup ⟨1⟩ ≠ none ∧
    l.orchestrator.residualGraph.entry 0 1 + l.taken 0 1 = o₀.residualGraph.entry 0 1 := by
  obtain ⟨graph, -, o₀, hnew, hsize, network, -, ⟨o₁, r⟩, hplaced, hsome, hmap, hemulation, o₂, hstop, -⟩ :
      Returns (demoCluster [0, 1] 1000) fun graph =>
        Returns (Orchestrator.new .inOrder graph 9092 1) fun o₀ => o₀.residualGraph.size = 2 ∧
          Returns (demoTopology 2 100) fun network =>
            Returns (o₀.newEmulation .checked .inOrder network ⟨1⟩) fun r => r.2.isSome = true ∧
              r.1.hostMapping = [demoHost 0, demoHost 1] ∧
              (r.1.emulations.lookup ⟨1⟩).map Prod.snd = some [0, 1] ∧
              Returns (r.1.stopAppEmulationOn .checked ⟨1⟩ (demoHost 0) 0) fun _ => True := by
    decide +kernel
  obtain ⟨r, rfl⟩ := Option.isSome_iff_exists.mp hsome
  obtain ⟨⟨matrix, p⟩, hstored, rfl⟩ := Option.map_eq_some_iff.mp hemulation
  obtain ⟨l₁, hfirst, rfl, ha, -⟩ :=
    step_placed (l := ⟨o₀, KeySet.empty⟩) rfl hplaced hstored (demo_places hmap)
  obtain ⟨l₂, hsecond, rfl, hb, -⟩ := step_appStopped ha rfl (by simp) hstop
  have hsettles : l₁.Settles (.stopApp ⟨1⟩ (demoHost 0) 0) := by
    intro a ha'
    rw [ha] at ha'
    cases ha'
    simp [NoneApart]
  have hruns : Runs .checked Settles ⟨o₀, KeySet.empty⟩ l₂ :=
    (Runs.start.step trivial hfirst).step hsettles hsecond
  refine ⟨o₀, l₂, hruns, ?_, (conservation (by simp) hnew hruns).1 0 1 (by omega) (by omega) (by omega)⟩
  rw [hb]
  exact Option.some_ne_none _

/-- Both apps stop, and what they took together is given back twice. -/
theorem stops_give_back_twice : ∃ (graph : Cgraph.CGraph ClusterNodeInfo) (o₀ : Orchestrator) (l : Ledger),
    Orchestrator.new .inOrder graph 9092 1 = .ok o₀ ∧ o₀.residualGraph.size = 2 ∧
    Runs .checked (fun _ _ => True) ⟨o₀, KeySet.empty⟩ l ∧ l.taken 0 1 = 0 ∧
    l.orchestrator.residualGraph.entry 0 1 = 1100 ∧ o₀.residualGraph.entry 0 1 = 1000 ∧ ¬ Conserved o₀ l := by
  obtain ⟨graph, -, o₀, hnew, hsize, hold, network, -, ⟨o₁, r⟩, hplaced, hsome, hmap, hemulation,
    o₂, hstop, o₃,
      hstop', hentry⟩ :
      Returns (demoCluster [0, 1] 1000) fun graph =>
        Returns (Orchestrator.new .inOrder graph 9092 1) fun o₀ => o₀.residualGraph.size = 2 ∧
          o₀.residualGraph.entry 0 1 = 1000 ∧
          Returns (demoTopology 2 100) fun network =>
            Returns (o₀.newEmulation .checked .inOrder network ⟨1⟩) fun r => r.2.isSome = true ∧
              r.1.hostMapping = [demoHost 0, demoHost 1] ∧
              (r.1.emulations.lookup ⟨1⟩).map Prod.snd = some [0, 1] ∧
              Returns (r.1.stopAppEmulationOn .checked ⟨1⟩ (demoHost 0) 0) fun o₂ =>
                Returns (o₂.stopAppEmulationOn .checked ⟨1⟩ (demoHost 1) 1) fun o₃ =>
                  o₃.residualGraph.entry 0 1 = 1100 := by
    decide +kernel
  obtain ⟨r, rfl⟩ := Option.isSome_iff_exists.mp hsome
  obtain ⟨⟨matrix, p⟩, hstored, rfl⟩ := Option.map_eq_some_iff.mp hemulation
  have hlen := (newEmulation_stored hplaced hstored (demo_places hmap)).2.found.length
  obtain ⟨l₁, hfirst, rfl, ha, htaken₁⟩ :=
    step_placed (l := ⟨o₀, KeySet.empty⟩) rfl hplaced hstored (demo_places hmap)
  obtain ⟨l₂, hsecond, rfl, hb, htaken₂⟩ := step_appStopped ha rfl (by simp) hstop
  obtain ⟨l₃, hthird, rfl, -, htaken₃⟩ :=
    step_appStopped hb rfl (by simp [Account.stop, Deployment.stop]) hstop'
  have hruns : Runs .checked (fun _ _ => True) ⟨o₀, KeySet.empty⟩ l₃ :=
    ((Runs.start.step trivial hfirst).step trivial hsecond).step trivial hthird
  have htaken : l₃.taken 0 1 = 0 := by
    have hstart : (⟨o₀, KeySet.empty⟩ : Ledger).taken 0 1 = 0 := rfl
    have h₁ := htaken₁ 0 1
    have h₂ := htaken₂ 0 1
    have h₃ := htaken₃ 0 1
    rw [Account.taken_of_stopped (a := Account.stop (Account.stop _ 0) 1) (fun app happ => ?_)] at h₃
    · omega
    · have hlt : app < [0, 1].length := lt_of_lt_of_eq happ hlen.symm
      have hcases : app = 0 ∨ app = 1 := by
        simp only [List.length_cons, List.length_nil] at hlt
        omega
      rcases hcases with rfl | rfl <;> simp [Account.stop, Deployment.stop]
  refine ⟨graph, o₀, l₃, hnew, hsize, hruns, htaken, hentry, hold, fun hconserved => ?_⟩
  have hbalance :=
    hconserved 0 1 (by rw [← SymMatrix.size]; omega) (by rw [← SymMatrix.size]; omega) (by omega)
  rw [htaken, hentry, hold] at hbalance
  omega

end Ledger

end Orchestrator

end Kollaps
