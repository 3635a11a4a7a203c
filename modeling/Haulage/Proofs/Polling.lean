import Haulage.Proofs.Outcome
import Haulage.Proofs.Rest

/-!
# Polling

An item that listens takes one signal after the other until one of them stops it, or none is
waiting any more. Each signal is judged against the item as those before it have left it.

A signal that does not stop an item leaves it alone, so all of them are in fact judged against the
item as it was at the beginning: listening comes to acting on the first signal that would have
stopped it then (`Item.poll_eq`). `Item.poll_exact` says what becomes of the item, and that a run
goes on from there. Workers listen in the same way (`Worker.listens_poll`).
-/

namespace Haulage

open Disk (Tree)

/-- What listening has come to. -/
structure Polled where
  /-- Does the item go on? -/
  goesOn : Bool
  item : Item
  /-- The number of signals taken, the silence at the end included. -/
  polls : ℕ
  deriving Repr, DecidableEq

/-- The same with one more signal before. -/
def Polled.later (r : Polled) : Polled := { r with polls := r.polls + 1 }

namespace Item

/-- Take signals until one stops the item or says that nothing is waiting. After the last one there
is silence. -/
def poll (i : Item) : List Signal → Polled
  | [] => ⟨true, i, 1⟩
  | s :: rest =>
    if s = .none then ⟨true, i, 1⟩
    else match i.inspect s with
      | (true, i') => (i'.poll rest).later
      | (false, i') => ⟨false, i', 1⟩

variable {i : Item} {s : Signal} {signals : List Signal}

/-! ## Signal by signal -/

/-- Silence ends the listening. -/
theorem poll_silence (i : Item) (rest : List Signal) : i.poll (.none :: rest) = ⟨true, i, 1⟩ :=
  if_pos rfl

/-- So does a signal that stops the item. -/
theorem poll_of_stops {state : ItemState} (h : i.stopState? s = some state) (rest : List Signal) :
    i.poll (s :: rest) = ⟨false, i.close state, 1⟩ := by
  have hs : s ≠ .none := by
    rintro rfl
    cases h
  simp only [poll, if_neg hs, inspect_of_stops h]

/-- Any other is heard, and the item is what it was. -/
theorem poll_of_ignored (h : i.stopState? s = none) (hs : s ≠ .none) (rest : List Signal) :
    i.poll (s :: rest) = (i.poll rest).later := by
  simp only [poll, if_neg hs, inspect_eq, h]

/-- Listening comes to acting on the first signal that stops the item as it was. -/
theorem poll_eq (i : Item) (hwaiting : .none ∉ signals) (later : List Signal) :
    i.poll (signals ++ .none :: later) = match i.firstStop signals with
      | none => ⟨true, i, signals.length + 1⟩
      | some (n, state) => ⟨false, i.close state, n + 1⟩ := by
  induction signals with
  | nil => exact i.poll_silence later
  | cons s rest ih =>
    rw [List.mem_cons, not_or] at hwaiting
    obtain ⟨hs, hrest⟩ := hwaiting
    rw [List.cons_append]
    cases hstop : i.stopState? s with
    | some state => simp only [poll_of_stops hstop, firstStop, hstop, Nat.zero_add]
    | none =>
      -- The others are still judged against `i`, since the item is what it was.
      rw [poll_of_ignored hstop (Ne.symm hs), ih hrest]
      cases hfirst : i.firstStop rest with
      | none => simp only [firstStop, hstop, hfirst, Option.map_none, Polled.later,
          List.length_cons]
      | some stop => simp only [firstStop, hstop, hfirst, Option.map_some, Polled.later]

/-! ## The item that was stopped -/

/-- The signal says that the medium of the allocated destination is gone, and not that of the
source. -/
def LosesAllocation (i : Item) (s : Signal) : Prop :=
  i.isAuto = true ∧ ∃ p : Priority,
    s = .vanish p ∧ p.isUnset = false ∧ p ≠ i.sourcePriority ∧ p = i.destinationPriority

/-- These are the signals that an item gives up its allocated destination for. -/
theorem stopState?_eq_vanished_iff :
    i.stopState? s = some .commonDestinationVanished ↔ i.LosesAllocation s := by
  cases s with
  | none | newItem | stop | clean => simp [stopState?, LosesAllocation]
  | cancel tag => simp [stopState?, LosesAllocation]
  | destinationChange p => simp [stopState?, LosesAllocation]
  | vanish p =>
    have hlost : i.lossState = .commonDestinationVanished ↔ i.isAuto = true := by
      unfold lossState
      split <;> simp [*]
    simp only [stopState?, LosesAllocation, Signal.vanish.injEq, exists_eq_left']
    split_ifs with hunset hsource hdestination
    · simp [hunset]
    · simp [hsource]
    · subst hdestination
      simp [hlost, hunset, hsource]
    · simp [hdestination]

/-- A destination that was named with the item is not given up or exchanged. -/
theorem stopState?_of_named {state : ItemState} (hnamed : i.isAuto = false)
    (h : i.stopState? s = some state) :
    state ≠ .commonDestinationVanished ∧ state ≠ .commonDestinationChanged := by
  constructor
  · rintro rfl
    have hauto := (stopState?_eq_vanished_iff.mp h).1
    rw [hnamed] at hauto
    cases hauto
  · rintro rfl
    cases s with
    | none | newItem | stop | clean => cases h
    | cancel tag => simp [stopState?] at h
    | destinationChange p => simp [stopState?, hnamed] at h
    | vanish p =>
      simp only [stopState?, lossState, hnamed] at h
      split_ifs at h <;> cases h

/-- What a signal makes of an item that it stops: the state is new, and an allocated destination may
be given up. -/
structure Stopped (i : Item) (s : Signal) (i' : Item) : Prop where
  stops : (i.inspect s).1 = false
  eq_inspect : i' = (i.inspect s).2
  terminal : i'.state.isTerminal = true
  cleared (h : i.LosesAllocation s) : i'.destination = none
  kept (h : ¬i.LosesAllocation s) : i'.destination = i.destination
  same : i' = { i with state := i'.state, destination := i'.destination }

/-- A signal that has a state to stop the item in does so. -/
theorem stopped_close {state : ItemState} (h : i.stopState? s = some state) :
    i.Stopped s (i.close state) := by
  have hinspect : i.inspect s = (false, i.close state) := inspect_of_stops h
  have hlost : state = .commonDestinationVanished ↔ i.LosesAllocation s := by
    rw [← stopState?_eq_vanished_iff, h, Option.some.injEq]
  exact {
    stops := by rw [hinspect]
    eq_inspect := by rw [hinspect]
    terminal := (stopState_spec h).1
    cleared := fun hloses => if_pos (hlost.mpr hloses)
    kept := fun hkeeps => if_neg (mt hlost.mp hkeeps)
    same := rfl }

/-! ## All signals -/

/-- What becomes of an item that listens while these signals wait. -/
structure Drained (i : Item) (signals : List Signal) (r : Polled) : Prop where
  /-- It goes on as it was just if none of them would have stopped it. -/
  goesOn_iff : r.goesOn = true ∧ r.item = i ↔ ∀ s ∈ signals, (i.inspect s).1 = true
  polls_eq (h : r.goesOn = true) : r.polls = signals.length + 1
  /-- Otherwise the first one that would have is the last one heard, and does so. -/
  stopped (h : ∃ s ∈ signals, (i.inspect s).1 = false) : r.goesOn = false ∧
    ∃ before s after, signals = before ++ s :: after ∧ r.polls = before.length + 1 ∧
      (∀ s' ∈ before, (i.inspect s').1 = true) ∧ i.Stopped s r.item
  named (h : i.isAuto = false) : r.item = i ∨
    r.item.state ≠ .commonDestinationVanished ∧ r.item.state ≠ .commonDestinationChanged

/-- Listening drains the signals that wait. -/
theorem drained_poll (i : Item) (hwaiting : .none ∉ signals) (later : List Signal) :
    i.Drained signals (i.poll (signals ++ .none :: later)) := by
  rw [poll_eq i hwaiting later]
  cases hfirst : i.firstStop signals with
  | none =>
    have hgoes := firstStop_eq_none_iff.mp hfirst
    exact {
      goesOn_iff := ⟨fun _ => hgoes, fun _ => ⟨rfl, rfl⟩⟩
      polls_eq := fun _ => rfl
      stopped := fun ⟨s, hs, hstops⟩ => absurd (hgoes s hs) (by simp [hstops])
      named := fun _ => .inl rfl }
  | some stop =>
    obtain ⟨n, state⟩ := stop
    obtain ⟨before, s, after, rfl, rfl, hbefore, hstop⟩ := firstStop_split hfirst
    have hstopped := stopped_close hstop
    refine ⟨⟨fun h => absurd h.1 (by simp), fun hgoes => ?_⟩, fun h => absurd h (by simp),
      fun _ => ⟨rfl, before, s, after, rfl, rfl, hbefore, hstopped⟩,
      fun hnamed => .inr (stopState?_of_named hnamed hstop)⟩
    have hs := hgoes s (List.mem_append_right _ List.mem_cons_self)
    rw [hstopped.stops] at hs
    cases hs

end Item

/-! ## Attempts -/

namespace Attempt

/-- The attempt after its item has listened. -/
def polled (a : Attempt) (r : Polled) : Attempt :=
  { a with item := r.item, stage := if r.goesOn then .moving else .ended }

/-- The rest of a run in which the item has listened to the first of the cues. -/
def runOn (cues : List Cue) (t : Tree) (polls : ℕ) (a : Attempt) (r : Polled) : RunResult :=
  (a.polled r).runFrom (cues.drop r.polls) (t.edits ((cues.take r.polls).flatMap Cue.edits))
    (polls + r.polls)

variable {a : Attempt}

/-- An attempt that hears a signal has either finished listening with it, or is what it was. -/
theorem hear_polled (s : Signal) (rest : List Signal) (a : Attempt) :
    (a.item.poll (s :: rest)).polls = 1 ∧ a.hear s = a.polled (a.item.poll (s :: rest)) ∨
      a.hear s = a ∧ a.item.poll (s :: rest) = (a.item.poll rest).later := by
  by_cases hs : s = .none
  · rw [hs, Item.poll_silence, hear_none]
    exact .inl ⟨rfl, rfl⟩
  · cases hstop : a.item.stopState? s with
    | some state =>
      rw [Item.poll_of_stops hstop, hear_of_stops hstop]
      exact .inl ⟨rfl, rfl⟩
    | none => exact .inr ⟨hear_of_ignored hstop hs, Item.poll_of_ignored hstop hs rest⟩

/-- A run that listens goes on, or comes to its end, as its item does. -/
theorem runFrom_poll (hstage : a.stage = .listening) (cues : List Cue) (t : Tree) (polls : ℕ) :
    a.runFrom cues t polls = a.runOn cues t polls (a.item.poll (cues.map Cue.signal)) := by
  induction cues generalizing t polls with
  | nil =>
    rw [runFrom_quiet hstage]
    rfl
  | cons cue cues ih =>
    rw [runFrom_cue hstage, List.map_cons]
    rcases a.hear_polled cue.signal (cues.map Cue.signal) with ⟨hpolls, hhear⟩ | ⟨hhear, hpoll⟩
    · rw [hhear, runOn, hpolls]
      simp
    · rw [hhear, hpoll, ih]
      simp only [runOn, Polled.later, List.drop_succ_cons, List.take_succ_cons, List.flatMap_cons,
        t.edits_append, Nat.add_assoc, Nat.add_comm 1]
      rfl

end Attempt

/-! ## Workers -/

namespace Worker

variable {σ : Type} {m : StorageManager σ} {buffer : BufferSize}

/-- A worker that is left alone with a job goes on as if the job had been told the mail that is
taken by listening. -/
def Listens (m : StorageManager σ) (buffer : BufferSize) (w : Worker) (r : Running) (x : Polled) :
    Prop :=
  ∀ (g : Surroundings σ) (finished : List Job), ∃ (w' : Worker) (r' : Running),
    w'.duty = .running r' ∧ r'.attempt = r.attempt.polled x ∧ w'.queue = w.queue.drop x.polls ∧
      w.settle m buffer g finished = w'.settle m buffer g finished

/-- A worker that is left alone listens to the mail that it has not taken yet. -/
theorem listens_poll {w : Worker} {r : Running} (hduty : w.duty = .running r)
    (hstage : r.attempt.stage = .listening) :
    w.Listens m buffer r (r.attempt.item.poll (w.queue.map Mail.tells)) := by
  intro g finished
  induction hqueue : w.queue generalizing w r with
  | nil =>
    have hnext : w.nextMail = none := nextMail_eq_none_iff.mpr hqueue
    have hstep : w.step m buffer g =
        some ⟨{ w with duty := .running { r with attempt := r.attempt.hear .none } }, g, none⟩ := by
      simp only [step, hduty, runStep, hstage, listen_of_nextMail_none hnext]
    rw [settle_of_step hstep, Option.toList_none, List.append_nil]
    exact ⟨{ w with duty := .running { r with attempt := r.attempt.hear .none } }, _, rfl, rfl,
      hqueue, rfl⟩
  | cons mail rest ih =>
    obtain ⟨w₁, hnext, hrest⟩ : ∃ w₁, w.nextMail = some (mail, w₁) ∧ w₁.queue = rest := by
      cases hnext : w.nextMail with
      | none => simp [nextMail_eq_none_iff.mp hnext] at hqueue
      | some x =>
        obtain ⟨mail', w₁⟩ := x
        obtain ⟨rfl, rfl⟩ := List.cons.inj ((queue_of_nextMail hnext).symm.trans hqueue)
        exact ⟨w₁, rfl, rfl⟩
    have hstep : w.step m buffer g =
        some ⟨{ w₁ with duty := .running (r.told mail) }, g, none⟩ := by
      simp only [step, hduty, runStep, hstage, listen_of_nextMail hnext]
      rfl
    rw [settle_of_step hstep, Option.toList_none, List.append_nil, List.map_cons]
    -- The job has been told the first mail; if it still listens, the rest of the queue follows.
    rcases r.attempt.hear_polled mail.tells (rest.map Mail.tells) with
      ⟨hpolls, hhear⟩ | ⟨hhear, hpoll⟩
    · exact ⟨{ w₁ with duty := .running (r.told mail) }, _, rfl, hhear, by rw [hpolls]; exact hrest,
        rfl⟩
    · have htold : (r.told mail).attempt = r.attempt := hhear
      obtain ⟨w', r', hduty', hattempt, hqueue', hsettle⟩ :=
        ih (w := { w₁ with duty := .running (r.told mail) }) rfl (htold ▸ hstage) hrest
      rw [htold] at hattempt hqueue'
      rw [hpoll]
      exact ⟨w', r', hduty', hattempt, hqueue', hsettle⟩

end Worker

/-! ## What listening comes to -/

namespace Item

/-- An item that listens goes on as it was, unless one of the signals would have stopped it at once;
then the first of these does. If source and destination are on one medium, the loss of it is that of
the source, and the loss of no medium or of any other means nothing. A run goes on from there, and
so does a worker, which listens to the mail that it has not taken yet. -/
theorem poll_exact (i : Item) {signals : List Signal} (hwaiting : .none ∉ signals)
    (later : List Signal) :
    i.Drained signals (i.poll (signals ++ .none :: later)) ∧
      (∀ p : Priority, p.isUnset = false → p = i.sourcePriority → p = i.destinationPriority →
        i.inspect (.vanish p) = (false, { i with state := .sourceVanished })) ∧
      (∀ p : Priority, p.isUnset = true ∨ p ≠ i.sourcePriority ∧ p ≠ i.destinationPriority →
        i.inspect (.vanish p) = (true, i)) ∧
      (∀ (a : Attempt) (cues : List Cue) (t : Tree) (polls : ℕ), a.item = i →
        a.stage = .listening → cues.map Cue.signal = signals ++ .none :: later →
        a.runFrom cues t polls = a.runOn cues t polls (i.poll (signals ++ .none :: later))) ∧
      ∀ {σ : Type} (m : StorageManager σ) (buffer : BufferSize) (w : Worker) (r : Running),
        r.attempt.item = i → r.attempt.stage = .listening → w.duty = .running r →
        w.Listens m buffer r (i.poll (w.queue.map Mail.tells)) := by
  refine ⟨drained_poll i hwaiting later, ?_, ?_, ?_, ?_⟩
  · intro p hset hsource _
    simp only [inspect, hset, if_pos hsource, Bool.false_eq_true, if_false]
  · rintro p (hunset | ⟨hsource, hdestination⟩)
    · simp only [inspect, if_pos hunset]
    · simp only [inspect, if_neg hsource, if_neg hdestination, ite_self]
  · rintro a cues t polls rfl hstage hcues
    rw [Attempt.runFrom_poll hstage, hcues]
  · rintro σ m buffer w r rfl hstage hduty
    exact Worker.listens_poll hduty hstage

/-- An item that was done before, with a destination that was allocated for it. -/
def lentItem : Item :=
  { fresh (.file ⟨"in"⟩) (.inr ⟨.unset, "logs", ⟨"out"⟩⟩) with
    state := .done
    destination := some ⟨"shelf/out"⟩
    sourcePriority := ⟨1, 2⟩
    destinationPriority := ⟨2, 1⟩
    tag := some 3 }

/-- Its medium is gone, and then that of its source, after signals that mean nothing to it. -/
def lentSignals : List Signal :=
  [.vanish .unset, .cancel 4, .destinationChange ⟨2, 1⟩, .newItem, .vanish ⟨2, 1⟩, .vanish ⟨1, 2⟩]

/-- Listening to them, in the middle of a run. -/
def lentAttempt : Attempt := ⟨lentItem, .listening, ⟨16, Nat.succ_pos 15⟩⟩

/-- The fifth signal is the last one that it takes. -/
theorem poll_exact_lentItem :
    .none ∉ lentSignals ∧
      lentItem.Drained lentSignals (lentItem.poll (lentSignals ++ [.none, .stop])) ∧
      lentItem.poll (lentSignals ++ [.none, .stop]) =
        ⟨false, { lentItem with state := .commonDestinationVanished, destination := none }, 5⟩ ∧
      lentItem.inspect (.vanish ⟨2, 2⟩) = (true, lentItem) ∧
      ({ lentItem with sourcePriority := ⟨2, 1⟩ } : Item).inspect (.vanish ⟨2, 1⟩) =
        (false, { lentItem with sourcePriority := ⟨2, 1⟩, state := .sourceVanished }) ∧
      lentAttempt.runFrom ((lentSignals ++ [Signal.none, .stop]).map (Cue.mk [])) Tree.blank 0 =
        lentAttempt.runOn ((lentSignals ++ [Signal.none, .stop]).map (Cue.mk [])) Tree.blank 0
          (lentItem.poll (lentSignals ++ [.none, .stop])) := by
  have hwaiting : .none ∉ lentSignals := by decide
  obtain ⟨hdrained, -, hother, hrun, -⟩ := poll_exact lentItem hwaiting [.stop]
  obtain ⟨-, hboth, -⟩ :=
    poll_exact { lentItem with sourcePriority := ⟨2, 1⟩ } (List.not_mem_nil (a := Signal.none)) []
  exact ⟨hwaiting, hdrained, by decide, hother ⟨2, 2⟩ (by decide),
    hboth ⟨2, 1⟩ (by decide) rfl rfl, hrun lentAttempt _ _ _ rfl rfl rfl⟩

end Item

end Haulage
