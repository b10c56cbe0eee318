import Kollaps.Emulcore.Statuses

/-!
# What a core does once for a crash

The container of an app is stopped and its end is reported when it crashes. Whatever is picked out
of the log for these is known from the crashes among the messages.
-/

namespace Kollaps

open Run Act

namespace Emulcore

/-! ## The crashes among the messages -/

def crashed (apps : AppMap) : List Node := nodesOf (apps.filter fun p => p.2 = .crashed)

/-- No event for an app follows its crash. -/
def FinalCrash (messages : List EmulMessage) : Prop :=
  ∀ appId before after, actionsOf messages appId = before ++ .crash :: after → after = []

theorem FinalCrash.before {messages : List EmulMessage} {m : EmulMessage}
    (h : FinalCrash (messages ++ [m])) : FinalCrash messages := by
  intro appId before after hactions
  by_cases hm : ∃ event, m = .event event
  · obtain ⟨event, rfl⟩ := hm
    have hall := h appId before (after ++ if event.appId = appId then [event.action] else [])
      (by rw [actionsOf_event, hactions]; simp)
    exact (List.append_eq_nil_iff.mp hall).1
  · exact h appId before after (by
      rw [actionsOf_other messages fun event heq => hm ⟨event, heq⟩]
      exact hactions)

theorem FinalCrash.fresh {messages : List EmulMessage} {event : EmulationEvent}
    (h : FinalCrash (messages ++ [.event event])) : .crash ∉ actionsOf messages event.appId := by
  intro hin
  obtain ⟨before, after, hactions⟩ := List.append_of_mem hin
  have hnil := h event.appId before (after ++ [event.action])
    (by rw [actionsOf_event, hactions, if_pos rfl]; simp)
  simp at hnil

theorem crash_of_after {actions : List EventAction} {status : AppStatus}
    (h : actions.foldl AppStatus.after status = .crashed) : status = .crashed ∨ .crash ∈ actions := by
  induction actions generalizing status with
  | nil => exact Or.inl h
  | cons action actions ih =>
    rcases ih h with hstatus | hin
    · cases action with
      | crash => exact Or.inr List.mem_cons_self
      | quit => cases status <;> cases hstatus
      | join =>
        cases status with
        | crashed => exact Or.inl rfl
        | _ => cases hstatus
    · exact Or.inr (List.mem_cons_of_mem _ hin)

theorem crash_of_status {messages : List EmulMessage} {n : Node} (h : statusAfter messages n = .crashed) :
    .crash ∈ actionsOf messages n.id := (crash_of_after h).resolve_left (by decide)

theorem FinalCrash.status_iff {messages : List EmulMessage} (h : FinalCrash messages) {n : Node} :
    statusAfter messages n = .crashed ↔ .crash ∈ actionsOf messages n.id := by
  refine ⟨crash_of_status, fun hin => ?_⟩
  obtain ⟨before, after, hactions⟩ := List.append_of_mem hin
  rw [h n.id before after hactions] at hactions
  unfold statusAfter
  rw [hactions, List.foldl_append]
  cases before.foldl AppStatus.after .notInit <;> rfl

theorem mem_crashed {core : EmulCore} {messages : List EmulMessage} {apps : AppMap}
    (h : StatusInv core messages apps) {n : Node} :
    n ∈ crashed apps ↔ Hosted core n ∧ statusAfter messages n = .crashed := by
  unfold crashed
  rw [mem_nodesOf]
  simp only [KeySet.elems_filter, List.mem_filter, decide_eq_true_eq]
  constructor
  · rintro ⟨status, hin, hcrashed⟩
    exact ⟨(h.nodes n).mp (List.mem_map_of_mem hin), (h.status _ hin).symm.trans hcrashed⟩
  · rintro ⟨hn, hcrashed⟩
    obtain ⟨status, hin⟩ := mem_nodesOf.mp ((h.nodes n).mpr hn)
    exact ⟨status, hin, (h.status _ hin).trans hcrashed⟩

/-! ## What is picked out of the log -/

section Picks

variable {α : Type} {pick : Effect → Option α} {of : Node → Option α} {core : EmulCore}

/-- What is picked is done for the crash of an app, and for nothing else. -/
structure AtCrash (core : EmulCore) (pick : Effect → Option α) (of : Node → Option α) : Prop where
  reporter : ∀ app m, pick (.toReporter app m) = none
  host : ∀ host id m, pick (.toHost host id m) = none
  crash : ∀ it ar s s' node, IsNode core.graph node → (onCrash it ar core s node).result = .ok s' →
    (onCrash it ar core s node).log.filterMap pick = (of node).toList

theorem onCrash_log {it : Iter} {ar : Arith} {s s' : Loop} {node : Node}
    (h : (onCrash it ar core s node).result = .ok s') :
    ∃ ended index, node.asApp >>= Application.index = .ok index ∧
      (∀ e ∈ ended, ∃ host id m, e = .toHost host id m) ∧
      (onCrash it ar core s node).log = ended ++ (.toReporter node .tcDisconnect ::
        ((stopAppIfNecessary node).log ++
          [.cleanStop node core.clusterLeader core.emulId core.myself index])) := by
  obtain ⟨r, -, h, hlog⟩ := Act.of_bind_eq_ok h
  obtain ⟨_, -, h, hlog₁⟩ := Act.of_bind_eq_ok h
  obtain ⟨_, -, h, hlog₂⟩ := Act.of_bind_eq_ok h
  obtain ⟨app, happ, h, hlog₃⟩ := Act.of_bind_eq_ok h
  obtain ⟨index, hindex, h, hlog₄⟩ := Act.of_bind_eq_ok h
  obtain ⟨_, -, h, hlog₅⟩ := Act.of_bind_eq_ok h
  refine ⟨_, index, (congrArg (· >>= Application.index) happ).trans hindex,
    (removeAllFlowsFrom_does (fun _ _ _ => ⟨_, _, _, rfl⟩) it ar core s.activeFlows s.bwGraph node).log, ?_⟩
  rw [onCrash, hlog, hlog₁, hlog₂, hlog₃, hlog₄, hlog₅]
  rfl

theorem atCrash_of {of : Node → Option α} (hreporter : ∀ app m, pick (.toReporter app m) = none)
    (hhost : ∀ host id m, pick (.toHost host id m) = none)
    (hpick : ∀ node index, IsNode core.graph node → node.asApp >>= Application.index = .ok index →
      ((stopAppIfNecessary node).log ++
        [Effect.cleanStop node core.clusterLeader core.emulId core.myself index]).filterMap pick =
          (of node).toList) :
    AtCrash core pick of := by
  refine ⟨hreporter, hhost, fun it ar s s' node hnode h => ?_⟩
  obtain ⟨ended, index, hindex, hended, hlog⟩ := onCrash_log h
  have hnone : ended.filterMap pick = [] := by
    refine List.filterMap_eq_nil_iff.mpr fun e he => ?_
    obtain ⟨host, id, m, rfl⟩ := hended e he
    exact hhost host id m
  rw [hlog, List.filterMap_append, hnone, List.nil_append, List.filterMap_cons_none (hreporter _ _)]
  exact hpick node index hnode hindex

theorem picks_eq_nil {β : Type} {m : Act Effect β} {Q : β → Prop} (h : Does m (fun e => pick e = none) Q) :
    m.log.filterMap pick = [] := List.filterMap_eq_nil_iff.mpr h.log

variable {it : Iter} {ar : Arith} {s s' : Loop}

/-- A message makes a core do this for the app that it crashes, and for no other. -/
theorem AtCrash.handled (h : AtCrash core pick of) (hknown : ∀ p ∈ s.myApps.elems, IsNode core.graph p.1)
    {m : EmulMessage} (he : (handle it ar core s m).result = .ok s') :
    ((handle it ar core s m).log.filterMap pick = [] ∧ ∀ event, m = .event event → event.action = .crash →
      ∀ p ∈ s.myApps.elems, event.appId ≠ p.1.id) ∨
    ∃ event node status, m = .event event ∧ event.action = .crash ∧ (node, status) ∈ s.myApps.elems ∧
      event.appId = node.id ∧ (handle it ar core s m).log.filterMap pick = (of node).toList := by
  cases m with
  | flowUpdate conf =>
    refine Or.inl ⟨?_, fun event heq => by cases heq⟩
    rcases onFlowUpdate_cases he with ⟨-, -, hlog⟩ | ⟨flow, props, -, -, -, -, hlog⟩
    · rw [show (handle it ar core s (.flowUpdate conf)).log = [] from hlog]
      rfl
    · rw [show (handle it ar core s (.flowUpdate conf)).log = _ from hlog]
      exact picks_eq_nil
        (announceFlow_does (fun _ _ _ => h.host _ _ _) it core _ _ _ fun _ _ _ _ => h.reporter _ _)
  | event event =>
    have he' : (onEvent it ar core s event).result = .ok s' := he
    rcases onEvent_cases he' with ⟨-, hlog, hnone⟩ |
      ⟨node, old, hin, hid, ⟨hact, heq⟩ | ⟨hact, heq⟩ | ⟨hact, heq⟩⟩
    · refine Or.inl ⟨?_, fun event' heq _ => ?_⟩
      · rw [show (handle it ar core s (.event event)).log = [] from hlog]
        rfl
      · cases heq
        exact hnone
    · rw [heq] at he'
      refine Or.inl ⟨?_, fun event' heq' hcrash => ?_⟩
      · rw [show handle it ar core s (.event event) = _ from heq]
        obtain ⟨_, -, -, hlog⟩ := Act.of_bind_eq_ok he'
        rw [show (onJoin it core s node old).log = _ from hlog, List.filterMap_append]
        cases old with
        | notInit =>
          rw [tellJoin, picks_eq_nil (initPaths_does it core node fun _ _ => h.reporter _ _)]
          rfl
        | stopped =>
          show List.filterMap pick [.toReporter node .tcReconnect] ++ [] = []
          rw [List.filterMap_cons_none (h.reporter _ _)]
          rfl
        | _ => rfl
      · cases heq'
        rw [hact] at hcrash
        cases hcrash
    · rw [heq] at he'
      refine Or.inl ⟨?_, fun event' heq' hcrash => ?_⟩
      · rw [show handle it ar core s (.event event) = _ from heq]
        obtain ⟨r, -, h', hlog⟩ := Act.of_bind_eq_ok he'
        obtain ⟨_, -, h', hlog₁⟩ := Act.of_bind_eq_ok h'
        rw [onQuit, hlog, hlog₁, List.filterMap_append, List.filterMap_append,
          picks_eq_nil (removeAllFlowsFrom_does (fun _ _ _ => h.host _ _ _) it ar core _ _ node)]
        show List.filterMap pick [.toReporter node .tcDisconnect] ++ [] = []
        rw [List.filterMap_cons_none (h.reporter _ _)]
        rfl
      · cases heq'
        rw [hact] at hcrash
        cases hcrash
    · rw [heq] at he'
      refine Or.inr ⟨event, node, old, rfl, hact, hin, hid, ?_⟩
      rw [show handle it ar core s (.event event) = _ from heq]
      exact h.crash it ar s s' node (hknown _ hin) he'
  | _ =>
    cases he
    exact Or.inl ⟨rfl, fun event heq => by cases heq⟩

theorem AtCrash.refreshed (h : AtCrash core pick of) : (refresh it core s).log.filterMap pick = [] :=
  picks_eq_nil (refresh_does it core s fun _ _ _ _ _ _ _ _ _ => h.reporter _ _)

end Picks

/-! ## Over a run -/

section Runs

variable {α : Type} {pick : Effect → Option α} {of : Node → Option α} {core : EmulCore}

/-- What has been picked out of the log, by the crashes among the messages. -/
structure PickInv (pick : Effect → Option α) (of : Node → Option α) (messages : List EmulMessage)
    (apps : AppMap) (log : List Effect) : Prop where
  known : ∀ a ∈ log.filterMap pick, ∃ n ∈ nodesOf apps, .crash ∈ actionsOf messages n.id ∧ of n = some a
  crashed : ∀ n ∈ nodesOf apps, .crash ∈ actionsOf messages n.id → ∀ a, of n = some a → a ∈ log.filterMap pick
  once : FinalCrash messages → (log.filterMap pick).Perm ((Emulcore.crashed apps).filterMap of)

theorem PickInv.of_picks {messages : List EmulMessage} {apps : AppMap} {log log' : List Effect}
    (h : PickInv pick of messages apps log) (hlog : log'.filterMap pick = log.filterMap pick) :
    PickInv pick of messages apps log' := by
  refine ⟨?_, ?_, ?_⟩ <;> rw [hlog]
  exacts [h.known, h.crashed, h.once]

theorem crash_mem_append {messages : List EmulMessage} (m : EmulMessage) {appId : Nat}
    (h : .crash ∈ actionsOf messages appId) : .crash ∈ actionsOf (messages ++ [m]) appId := by
  by_cases hm : ∃ event, m = .event event
  · obtain ⟨event, rfl⟩ := hm
    rw [actionsOf_event]
    exact List.mem_append_left _ h
  · rwa [actionsOf_other messages fun event heq => hm ⟨event, heq⟩]

theorem PickInv.handled {it : Iter} {ar : Arith} {messages : List EmulMessage} {s s' : Loop}
    {log : List Effect} (hpick : AtCrash core pick of) (hstatus : StatusInv core messages s.myApps)
    (h : PickInv pick of messages s.myApps log) {m : EmulMessage}
    (he : (handle it ar core s m).result = .ok s') :
    PickInv pick of (messages ++ [m]) s'.myApps (log ++ (handle it ar core s m).log) := by
  have hstatus' := hstatus.handled he
  have hsame : ∀ n, n ∈ nodesOf s'.myApps ↔ n ∈ nodesOf s.myApps := fun n =>
    (hstatus'.nodes n).trans (hstatus.nodes n).symm
  have hold : ∀ a ∈ log.filterMap pick,
      ∃ n ∈ nodesOf s'.myApps, .crash ∈ actionsOf (messages ++ [m]) n.id ∧ of n = some a := by
    intro a ha
    obtain ⟨n, hn, hcrash, hof⟩ := h.known a ha
    exact ⟨n, (hsame n).mpr hn, crash_mem_append m hcrash, hof⟩
  rcases hpick.handled (fun p hp => hstatus.isNode hp) he with
    ⟨hnone, hcrash⟩ | ⟨event, node, old, rfl, hact, hin, hid, hone⟩
  · have hearlier : ∀ n ∈ nodesOf s.myApps, .crash ∈ actionsOf (messages ++ [m]) n.id →
        .crash ∈ actionsOf messages n.id := by
      intro n hn hin
      by_cases hm : ∃ event, m = .event event
      · obtain ⟨event, rfl⟩ := hm
        rw [actionsOf_event, List.mem_append] at hin
        refine hin.resolve_right fun hlast => ?_
        split at hlast
        · next hid =>
          obtain ⟨p, hp, rfl⟩ := List.mem_map.mp hn
          exact hcrash event rfl (List.mem_singleton.mp hlast).symm p hp hid
        · cases hlast
      · rwa [actionsOf_other messages fun event heq => hm ⟨event, heq⟩] at hin
    refine ⟨?_, ?_, ?_⟩ <;> rw [List.filterMap_append, hnone, List.append_nil]
    · exact hold
    · exact fun n hn hin => h.crashed n ((hsame n).mp hn) (hearlier n ((hsame n).mp hn) hin)
    · intro hfinal
      refine (h.once hfinal.before).trans (List.Perm.filterMap _ ?_)
      refine (List.perm_ext_iff_of_nodup (nodesOf_nodup _) (nodesOf_nodup _)).mpr fun n => ?_
      show n ∈ Emulcore.crashed _ ↔ n ∈ Emulcore.crashed _
      rw [mem_crashed hstatus, mem_crashed hstatus', hfinal.before.status_iff, hfinal.status_iff]
      exact and_congr_right fun hn => ⟨crash_mem_append m, hearlier n ((hstatus.nodes n).mpr hn)⟩
  · have hnode := hstatus.isNode hin
    have hhosted := (hstatus.nodes node).mp (List.mem_map_of_mem hin)
    have hnow : .crash ∈ actionsOf (messages ++ [.event event]) node.id := by
      rw [actionsOf_event, if_pos hid, hact]
      simp
    refine ⟨?_, ?_, ?_⟩ <;> rw [List.filterMap_append, hone]
    · intro a ha
      rw [List.mem_append, Option.mem_toList] at ha
      exact ha.elim (hold a) fun hof => ⟨node, (hsame node).mpr (List.mem_map_of_mem hin), hnow, hof⟩
    · intro n hn hcrash a hof
      rw [List.mem_append]
      have hn' := ((hstatus'.nodes n).mp hn).isNode
      by_cases heq : event.appId = n.id
      · obtain rfl : n = node := eq_of_nodeId hn' hnode (heq.symm.trans hid)
        exact Or.inr (by rw [hof]; simp)
      · rw [actionsOf_event, if_neg heq, List.append_nil] at hcrash
        exact Or.inl (h.crashed n ((hsame n).mp hn) hcrash a hof)
    · intro hfinal
      have hnotin : node ∉ Emulcore.crashed s.myApps := by
        rw [mem_crashed hstatus, hfinal.before.status_iff, ← hid]
        exact fun hboth => hfinal.fresh hboth.2
      have hperm : (Emulcore.crashed s.myApps ++ [node]).Perm (Emulcore.crashed s'.myApps) := by
        refine (List.perm_ext_iff_of_nodup ?_ (nodesOf_nodup _)).mpr fun n => ?_
        · refine List.nodup_append.mpr ⟨nodesOf_nodup _, List.nodup_singleton _, ?_⟩
          rintro a ha b hb rfl
          exact hnotin (List.mem_singleton.mp hb ▸ ha)
        · show _ ↔ n ∈ Emulcore.crashed _
          rw [List.mem_append, List.mem_singleton, mem_crashed hstatus, mem_crashed hstatus',
            hfinal.before.status_iff, hfinal.status_iff]
          constructor
          · rintro (⟨hn, hcrash⟩ | rfl)
            · exact ⟨hn, crash_mem_append _ hcrash⟩
            · exact ⟨hhosted, hnow⟩
          · rintro ⟨hn, hcrash⟩
            by_cases heq : event.appId = n.id
            · exact Or.inr (eq_of_nodeId hn.isNode hnode (heq.symm.trans hid))
            · rw [actionsOf_event, if_neg heq, List.append_nil] at hcrash
              exact Or.inl ⟨hn, hcrash⟩
      have hlast : (Emulcore.crashed s.myApps).filterMap of ++ (of node).toList =
          (Emulcore.crashed s.myApps ++ [node]).filterMap of := by
        rw [List.filterMap_append]
        cases hof : of node <;> simp [hof]
      refine ((h.once hfinal.before).append_right _).trans ?_
      rw [hlast]
      exact hperm.filterMap of

theorem Course.pickInv {ar : Arith} {g : Network Node} {ok : List EmulMessage → EmulMessage → Prop}
    {messages : List EmulMessage} {c : Config} (hpick : AtCrash core pick of)
    (h : Course ar g core ok messages c) {s : Loop} (hs : c.phase.loop = some s) :
    PickInv pick of messages s.myApps c.log := by
  induction h generalizing s with
  | init hinit =>
    have hstatus := hinit.statusInv hs
    cases hinit with
    | @mk _ _ _ _ apps it hnew happs =>
      cases hs
      have hnone : (initEmulation it core).log.filterMap pick = [] :=
        picks_eq_nil (initEmulation_does it core fun _ _ => hpick.reporter _ _)
      refine ⟨by rw [hnone]; simp, by simp [actionsOf], fun _ => ?_⟩
      have hnil : Emulcore.crashed (start core apps).myApps = [] := by
        refine List.eq_nil_iff_forall_not_mem.mpr fun n hn => ?_
        have := ((mem_crashed hstatus).mp hn).2
        cases this
      rw [hnil, hnone]
      exact List.Perm.refl _
  | message hcourse _ hstep ih =>
    obtain ⟨s₀, it, m, hphase, rfl, he, -, hlog⟩ := hstep.refreshed hs
    have hloop := congrArg Phase.loop hphase
    refine ((ih hloop).handled hpick (hcourse.statusInv hloop) he).of_picks ?_
    rw [hlog, ← List.append_assoc, List.filterMap_append, hpick.refreshed, List.append_nil]

end Runs

end Emulcore

end Kollaps
