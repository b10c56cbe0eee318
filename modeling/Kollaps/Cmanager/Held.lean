import Kollaps.Cmanager.Joining

/-!
# Who holds the join lock

The lock is set before the leader knows that its answer arrives, and nothing times it out.
Only a message of a join clears it, so it must be held by an answer in flight or by a join.
-/

namespace Kollaps

open Run Act Cgraph

namespace Cmanager

def Event.isAccepted : Event → Bool
  | .cjqResponse (.accepted _ _) => true
  | _ => false

namespace World

def Busy (w : World) : Prop :=
  (∃ d ∈ w.datagrams, d.event.isAccepted = true) ∨ ∃ n, w.Joining n

def Held (w : World) : Prop := w.leader.addingNewNode = true → w.Busy

/-- The move takes a datagram off the network, and nobody hears it. -/
def Drops (w : World) (m : Move) (i : Nat) (d : Datagram) : Prop :=
  w.datagrams[i]? = some d ∧
    (m = .lose i ∨ m = .deliver i ∧ w.phase d.binding.node ≠ .pending d.binding.request)

/-- The move drops the only `Accepted` in flight, while the lock is set and nobody is joining. -/
def Orphans (w : World) (m : Move) : Prop :=
  ∃ i d, w.Drops m i d ∧ d.event.isAccepted = true ∧
    (∀ d' ∈ w.datagrams.eraseIdx i, d'.event.isAccepted = false) ∧
    w.leader.addingNewNode = true ∧ ∀ n, ¬ w.Joining n

end World

/-- The runs in which no step orphans the lock. -/
inductive Kept (w₀ : World) : World → Prop
  | start : w₀.Initial → Kept w₀ w₀
  | step {w w' : World} (it : Iter) (m : Move) (h : Kept w₀ w) (hm : ¬ w.Orphans m)
      (hw' : (w.step it m).result = .ok w') : Kept w₀ w'

theorem Kept.trace {w₀ w : World} (h : Kept w₀ w) : ∃ log, Trace w₀ log w := by
  induction h with
  | start h => exact ⟨[], .start h⟩
  | step it m h hm hw' ih =>
    obtain ⟨log, htrace⟩ := ih
    exact ⟨_, htrace.step it m hw'⟩

/-! ## What keeps the world busy -/

namespace World

variable {w w' : World}

theorem Joining.mono {n : ClusterNodeInfo} (h : w.Joining n)
    (hphase : (w.phase n).isInside = true → (w'.phase n).isInside = true)
    (hconnections : ∀ p ∈ w.connections, p.2.isLast = true → p ∈ w'.connections) :
    w'.Joining n := by
  rcases h with h | ⟨event, hmem, hlast⟩
  · exact Or.inl (hphase h)
  · exact Or.inr ⟨event, hconnections _ hmem hlast, hlast⟩

theorem Busy.setPeer {n : ClusterNodeInfo} {p : Peer} {ds : List Datagram} (h : w.Busy)
    (hn : (w.phase n).isInside = false)
    (hds : ∀ d ∈ w.datagrams, d.event.isAccepted = true → d ∈ ds) :
    { w.setPeer n p with datagrams := ds }.Busy := by
  rcases h with ⟨d, hd, hacc⟩ | ⟨m, hm⟩
  · exact Or.inl ⟨d, hds d hd hacc, hacc⟩
  · refine Or.inr ⟨m, hm.mono (fun hin => ?_) fun p hp _ => hp⟩
    have hne : m ≠ n := by
      rintro rfl
      rw [hn] at hin
      cases hin
    show ((w.setPeer n p).phase m).isInside = true
    rwa [w.phase_setPeer, if_neg hne]

theorem Busy.datagrams {ds : List Datagram} (h : w.Busy)
    (hds : ∀ d ∈ w.datagrams, d.event.isAccepted = true → d ∈ ds) :
    { w with datagrams := ds }.Busy := by
  rcases h with ⟨d, hd, hacc⟩ | ⟨m, hm⟩
  · exact Or.inl ⟨d, hds d hd hacc, hacc⟩
  · exact Or.inr ⟨m, hm⟩

theorem mem_eraseIdx_of_event {i : Nat} {d d' : Datagram} (hd : w.datagrams[i]? = some d)
    (hd' : d' ∈ w.datagrams) (hne : d' ≠ d) : d' ∈ w.datagrams.eraseIdx i := by
  obtain ⟨j, hj⟩ := List.mem_iff_getElem?.mp hd'
  refine List.mem_eraseIdx_iff_getElem?.mpr ⟨j, ?_, hj⟩
  rintro rfl
  rw [hd] at hj
  exact hne (Option.some.inj hj).symm

theorem connect_joining {n : ClusterNodeInfo} {event : Event} (hlast : event.isLast = true) :
    (w.connect n event).Joining n :=
  Or.inr ⟨event, List.mem_append_right _ (List.mem_singleton_self _), hlast⟩

theorem Drops.held {m : Move} {i : Nat} {d : Datagram} (h : w.Held) (hd : w.Drops m i d)
    (hm : ¬ w.Orphans m) : { w with datagrams := w.datagrams.eraseIdx i }.Held := by
  intro hflag
  by_cases hacc : d.event.isAccepted = true
  · by_contra hidle
    refine hm ⟨i, d, hd, hacc, fun d' hd' => ?_, hflag, fun n hn => hidle (Or.inr ⟨n, hn⟩)⟩
    rw [← Bool.not_eq_true]
    exact fun hacc' => hidle (Or.inl ⟨d', hd', hacc'⟩)
  · refine (h hflag).datagrams fun d' hd' hacc' => mem_eraseIdx_of_event hd.1 hd' ?_
    rintro rfl
    exact hacc hacc'

end World

theorem Lock.held {it : Iter} {w w' : World} {m : Move} {marks : List Mark} {s : Stage}
    (hlock : Lock w s) (h : w.Held) (hm : ¬ w.Orphans m) (hstep : Stepped it w m marks w') :
    w'.Held := by
  have hidle : ∀ {n : ClusterNodeInfo} {p : Phase}, w.phase n = p → p.isInside = false →
      (w.phase n).isInside = false := fun hp hout => hp ▸ hout
  cases hstep with
  | @request _ n ctrl k hidle hinfo =>
    have hout : (w.phase n).isInside = false := by
      cases hp : w.phase n <;> simp [hp, Phase.isIdle] at hidle <;> rfl
    exact fun hflag => (h hflag).setPeer hout fun d hd _ => List.mem_append_left _ hd
  | giveUp hphase => exact fun hflag => (h hflag).setPeer (hidle hphase rfl) fun d hd _ => hd
  | timeout hphase => exact fun hflag => (h hflag).setPeer (hidle hphase rfl) fun d hd _ => hd
  | wait hd hadding =>
    refine fun hflag => (h hflag).datagrams fun d' hd' hacc => List.mem_append_left _ ?_
    refine World.mem_eraseIdx_of_event hd hd' ?_
    rintro rfl
    cases hacc
  | accept hd hadding =>
    exact fun _ => Or.inl ⟨_, List.mem_append_right _ (List.mem_singleton_self _), rfl⟩
  | @hearAccepted i k b leader id hd hphase =>
    refine fun _ => Or.inr ⟨b.node, Or.inl ?_⟩
    show ((w.setPeer b.node ⟨(w.peers b.node).ctrl, k, .accepted leader id⟩).phase b.node).isInside =
      true
    rw [w.phase_setPeer, if_pos rfl]
    rfl
  | hearWait hd hphase =>
    refine fun hflag => (h hflag).setPeer (hidle hphase rfl) fun d' hd' hacc =>
      World.mem_eraseIdx_of_event hd hd' ?_
    rintro rfl
    cases hacc
  | lose hd => exact World.Drops.held h ⟨hd, Or.inl rfl⟩ hm
  | @unheard i d hd hphase =>
    by_cases hacc : d.event.isAccepted = true
    · refine World.Drops.held h ⟨hd, Or.inr ⟨rfl, ?_⟩⟩ hm
      cases he : d.event <;> simp [he, Event.isAccepted] at hacc
      exact hphase _ he
    · refine fun hflag => (h hflag).datagrams fun d' hd' hacc' =>
        World.mem_eraseIdx_of_event hd hd' ?_
      rintro rfl
      exact hacc hacc'
  | duplicate hd => exact fun hflag => (h hflag).datagrams fun d hd _ => List.mem_append_left _ hd
  | @askGraph n leader id hphase =>
    refine fun _ => Or.inr ⟨n, Or.inl ?_⟩
    show ((w.setPhase n (.asked id)).phase n).isInside = true
    rw [w.phase_setPhase, if_pos rfl]
    rfl
  | failToAsk hphase => exact fun _ => Or.inr ⟨_, World.connect_joining rfl⟩
  | @sendGraph i n hi =>
    obtain ⟨rfl, -⟩ := hlock.asking_of_connection hi
    obtain ⟨id, hphase⟩ := hlock.fits
    refine fun _ => Or.inr ⟨n, Or.inl ?_⟩
    show (w.phase n).isInside = true
    rw [hphase]
    rfl
  | update hi => exact fun hflag => absurd hflag Bool.false_ne_true
  | abort hi => exact fun hflag => absurd hflag Bool.false_ne_true
  | @receiveGraph i n graph id hi hphase =>
    refine fun _ => Or.inr ⟨n, Or.inl ?_⟩
    show ((w.setPeer n { w.peers n with
      ctrl := { (w.peers n).ctrl with cgraph := graph }
      phase := .completing id }).phase n).isInside = true
    rw [w.phase_setPeer, if_pos rfl]
    rfl
  | complete hphase hctrl => exact fun _ => Or.inr ⟨_, World.connect_joining rfl⟩
  | failToComplete hphase => exact fun _ => Or.inr ⟨_, World.connect_joining rfl⟩
  | missed => exact fun hflag => h hflag
  | removed hgraph => exact fun hflag => h hflag

/-! ## What a step that orphans the lock does -/

namespace World

variable {w w' : World}

theorem Drops.result {m : Move} {i : Nat} {d : Datagram} {it : Iter} (hd : w.Drops m i d)
    (hacc : d.event.isAccepted = true) (hw' : (w.step it m).result = .ok w') :
    w' = { w with datagrams := w.datagrams.eraseIdx i } := by
  obtain ⟨hd, rfl | ⟨rfl, hphase⟩⟩ := hd
  · obtain ⟨d', hd', h, -⟩ := of_bind_eq_ok (m := liftM (Run.get w.datagrams i)) hw'
    cases h
    rfl
  · obtain ⟨b, event⟩ := d
    cases event with
    | cjqResponse kind =>
      obtain ⟨d', hd', h, -⟩ := of_bind_eq_ok (m := liftM (Run.get w.datagrams i)) hw'
      rw [result_lift, get_eq_ok, hd] at hd'
      cases hd'
      cases h
      exact if_neg hphase
    | _ => cases hacc

theorem Orphans.not_held {it : Iter} {m : Move} (h : w.Orphans m)
    (hw' : (w.step it m).result = .ok w') : ¬ w'.Held := by
  obtain ⟨i, d, hd, hacc, hlast, hflag, hidle⟩ := h
  rw [hd.result hacc hw']
  intro hheld
  rcases hheld hflag with ⟨d', hd', hacc'⟩ | ⟨n, hn⟩
  · rw [hlast d' hd'] at hacc'
    cases hacc'
  · exact hidle n hn

end World

/-- The lock is held in every state of a run, as long as no step drops the only answer that
holds it; and such a step orphans it. -/
theorem lock_held {w₀ w : World} (h : Kept w₀ w) : w.Held ∧
    ∀ it m w', (w.step it m).result = .ok w' → (w'.Held ↔ ¬ w.Orphans m) := by
  have hheld : w.Held := by
    induction h with
    | start h =>
      obtain ⟨hlock, -⟩ := h.lock
      intro hflag
      exact absurd rfl (hlock.flag.mp hflag)
    | step it m h hm hw' ih =>
      obtain ⟨log, htrace⟩ := h.trace
      obtain ⟨s, hlock, -⟩ := htrace.lock
      exact hlock.held ih hm (World.step_ok hlock.leads hlock.joining hw')
  refine ⟨hheld, fun it m w' hw' => ⟨fun hheld' hm => hm.not_held hw' hheld', fun hm => ?_⟩⟩
  obtain ⟨log, htrace⟩ := h.trace
  obtain ⟨s, hlock, -⟩ := htrace.lock
  exact hlock.held hheld hm (World.step_ok hlock.leads hlock.joining hw')

theorem lock_held_demo : ∃ w₀ w, Kept w₀ w ∧ w.leader.addingNewNode = true ∧ w.Held := by
  obtain ⟨leader, hleader, w₁, hw₁, hnone, w₂, hw₂, hflag⟩ :
      Returns ((Ctrl.build demoConfig (demoNode 0) 100 true).createCluster .inOrder ⟨7⟩) fun leader =>
        Returns ((demoWorld leader).step .inOrder (.start (demoNode 1))).result fun w₁ =>
          (∀ d ∈ w₁.datagrams, d.event.isAccepted = false) ∧
            Returns (w₁.step .inOrder (.deliver 0)).result fun w₂ => w₂.leader.addingNewNode = true := by
    decide +kernel
  have hkept : Kept (demoWorld leader) w₂ := by
    refine (Kept.step .inOrder (.start (demoNode 1)) (.start ?_) ?_ hw₁).step .inOrder (.deliver 0) ?_ hw₂
    · exact ⟨⟨_, _, _, _, _, hleader⟩, fun n => ⟨rfl, rfl⟩, rfl, rfl, rfl⟩
    · rintro ⟨i, d, ⟨hd, -⟩, -⟩
      cases hd
    · rintro ⟨i, d, ⟨hd, -⟩, hacc, -⟩
      rw [hnone d (List.mem_of_getElem? hd)] at hacc
      cases hacc
  exact ⟨_, w₂, hkept, hflag, (lock_held hkept).1⟩

/-- The answer that accepts the only node is lost, and the lock is nobody's. -/
theorem lock_orphaned : ∃ w₀ log w, Trace w₀ log w ∧ ¬ w.Held := by
  obtain ⟨w, hw, hdatagrams, hphase⟩ : Returns (demoRun [.start (demoNode 1), .deliver 0]).result
      fun w => w.datagrams = [⟨⟨demoNode 1, 0⟩, .cjqResponse (.accepted (demoNode 0) ⟨7⟩)⟩] ∧
        w.phase (demoNode 1) = .pending 0 := by decide +kernel
  obtain ⟨w₀, htrace⟩ := demoRun_trace hw
  obtain ⟨s, hlock, -⟩ := htrace.lock
  have hs := hlock.live ⟨demoNode 1, 0⟩ (demoNode 0) ⟨7⟩ (by rw [hdatagrams]; simp) hphase
  have hlose : (w.step .inOrder (.lose 0)).result = .ok { w with datagrams := [] } := by
    unfold World.step World.lose
    rw [hdatagrams]
    rfl
  have horphans : w.Orphans (.lose 0) := by
    refine ⟨0, _, ⟨by rw [hdatagrams]; rfl, Or.inl rfl⟩, rfl, fun d hd => ?_, ?_, fun n hn => ?_⟩
    · rw [hdatagrams] at hd
      cases hd
    · exact hlock.flag.mpr (by simp [hs])
    · rcases hlock.joining_stage hn with hn | ⟨event, hn⟩ <;> simp [hs, Stage.inside] at hn
  exact ⟨w₀, _, _, htrace.step .inOrder (.lose 0) hlose, horphans.not_held hlose⟩

end Cmanager

end Kollaps
