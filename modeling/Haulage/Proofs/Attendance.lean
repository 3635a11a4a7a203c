import Haulage.Proofs.Accounts
import Haulage.Proofs.Finality
import Haulage.Proofs.Rest

/-!
# Workers that attend to their mail

Whatever a running pool takes on goes to the inbox of a worker, and counts on that worker to read
it. `Workshop.attentive_after` says that it does, in every run in which the pool is not shut down
and nobody tells the workers of the running pool to stop by other means: no worker ends, and every
job that was taken on is with a worker that goes on, is finished, or was delivered.

Telling the workers to stop without shutting down the pool strands whatever is taken on
afterwards (`Workshop.not_placed_strandedJob`).
-/

namespace Haulage

namespace Workshop

open Log

variable {κ σ : Type} {m : StorageManager σ} {y y' : Workshop κ σ} {a : Act κ σ}

/-! ## What a run tells the workers -/

/-- Nobody tells the workers of the running pool to stop by sending all of them the signal. -/
def Untold (m : StorageManager σ) (settings : Settings) (loop : EventLoop)
    (ground : Surroundings σ) (acts : List (Act κ σ)) : Prop :=
  ∀ before later, acts = before ++ .broadcast .stop :: later →
    (after m settings loop ground before).pool.phase ≠ .running

/-- Nobody does in the beginning of such a run. -/
theorem Untold.of_concat {settings : Settings} {loop : EventLoop} {ground : Surroundings σ}
    {acts : List (Act κ σ)} (h : Untold m settings loop ground (acts ++ [a])) :
    Untold m settings loop ground acts := by
  intro before later hsplit
  refine h before (later ++ [a]) ?_
  rw [hsplit, List.append_assoc, List.cons_append]

/-- An act that might close a pool changes nothing if the pool is not told to shut down and its
workers are not told to stop. -/
theorem next_eq_of_closing (h : y.Open) (hopen : Act.keepsOpen a = false) (hstop : a ≠ .stop)
    (htold : a = .broadcast .stop → y.pool.phase ≠ .running) : y.next m a = y := by
  have hdismiss : y.next m .dismiss = y := by
    simp only [next]
    split
    · rename_i hcalm hdown
      exact absurd hdown h.up
    · rfl
  have hbroadcast (hresting : y.pool.phase ≠ .running) : y.next m (.broadcast .stop) = y := by
    simp only [next]
    split
    · rename_i hcalm hrunning
      exact absurd hrunning hresting
    · rfl
  cases a with
  | stop => exact absurd rfl hstop
  | dismiss => exact hdismiss
  | broadcast s =>
    cases s with
    | stop => exact hbroadcast (htold rfl)
    | _ => cases hopen
  | _ => cases hopen

/-! ## Deliveries -/

/-- What was struck off had been handed over. -/
structure Receipted (y : Workshop κ σ) : Prop where
  struck : ∀ j, .struck j ∈ y.log → ∃ receiver, .handed j receiver ∈ y.log
  delivery : ∀ j receiver, y.delivery = some ⟨j, some receiver⟩ → .handed j receiver ∈ y.log

/-- The entries of jobs taken on strike nothing off. -/
theorem not_struck_mem_taken (jobs : List Job) (j : Job) :
    .struck j ∉ (jobs.map (@Entry.taken κ)).reverse := by
  intro hmem
  obtain ⟨j', -, heq⟩ := List.mem_map.mp (List.mem_reverse.mp hmem)
  cases heq

/-- Only what was handed over is struck off. -/
theorem Receipted.effect (h : y.Receipted) (heffect : Effect m y a y') : y'.Receipted := by
  have hmore (newer : List (Entry κ)) (hnone : ∀ j, .struck j ∉ newer) (j : Job)
      (hj : .struck j ∈ newer ++ y.log) : ∃ receiver, .handed j receiver ∈ newer ++ y.log := by
    obtain ⟨receiver, hhanded⟩ := h.struck j ((List.mem_append.mp hj).resolve_left (hnone j))
    exact ⟨receiver, List.mem_append_right _ hhanded⟩
  have hkept (newer : List (Entry κ)) (j : Job) (receiver : Option κ)
      (hj : y.delivery = some ⟨j, some receiver⟩) : .handed j receiver ∈ newer ++ y.log :=
    List.mem_append_right _ (h.delivery j receiver hj)
  cases heffect with
  | nothing a => exact h
  | aside stays clients crew completed phase => exact ⟨h.struck, h.delivery⟩
  | started calm start => exact ⟨h.struck, h.delivery⟩
  | @opened c receiver items tags clients calm running unknown items_ne allocated =>
    refine ⟨hmore _ fun j hmem => ?_, hkept _⟩
    rcases List.mem_append.mp hmem with htaken | hopened
    · exact not_struck_mem_taken _ j htaken
    · cases List.mem_singleton.mp hopened
  | added calm running known allocated =>
    refine ⟨hmore _ fun j hmem => ?_, hkept _⟩
    rw [List.append_nil] at hmem
    exact not_struck_mem_taken _ j hmem
  | @cancelled c _ calm running known => exact ⟨hmore [.cancelled c] (by simp), hkept [_]⟩
  | detached c => exact ⟨hmore [.detached c] (by simp), hkept [_]⟩
  | told calm running => exact ⟨h.struck, h.delivery⟩
  | stopped calm running => exact ⟨h.struck, h.delivery⟩
  | retired calm resting => exact ⟨h.struck, h.delivery⟩
  | dismissed calm down gone => exact ⟨h.struck, h.delivery⟩
  | ran errands => exact ⟨h.struck, h.delivery⟩
  | @worked k w r worker step =>
    refine ⟨hmore _ fun j hmem => ?_, hkept _⟩
    obtain ⟨j', -, heq⟩ := List.mem_map.mp hmem
    cases heq
  | fetched free completed => exact ⟨h.struck, by rintro j receiver ⟨⟩⟩
  | @strayed j delivery unknown =>
    exact ⟨hmore [.stray j] (by simp), by rintro j receiver ⟨⟩⟩
  | @handed j account delivery known =>
    refine ⟨hmore [.handed j account.receiver] (by simp), ?_⟩
    rintro j' receiver ⟨⟩
    exact List.mem_cons_self
  | @struck j receiver delivery =>
    refine ⟨?_, by rintro j receiver ⟨⟩⟩
    intro j' hj'
    rcases List.mem_cons.mp hj' with heq | hold
    · cases heq
      exact ⟨receiver, List.mem_cons_of_mem _ (h.delivery j receiver delivery)⟩
    · obtain ⟨receiver', hhanded⟩ := h.struck j' hold
      exact ⟨receiver', List.mem_cons_of_mem _ hhanded⟩

/-! ## Where jobs are -/

/-- Where a job is that was taken on. -/
inductive Placed (y : Workshop κ σ) (j : Job) : Prop
  /-- The call that took it on is still sending it. -/
  | sending {j' : Job} (errands : .dispatch j' ∈ y.errands) (same : j'.manifest = j.manifest)
  /-- A worker that goes on has it in its inbox or its backlog, or in hand. -/
  | attended {w : Worker} (worker : w ∈ y.pool.crew) (live : w.isGone = false)
      (line : .job j.manifest ∈ w.line)
  /-- It is finished. -/
  | finished {j' : Job} (completed : j' ∈ y.pool.completed) (same : j'.manifest = j.manifest)
  /-- It is being delivered. -/
  | fetched {d : Delivery κ} (delivery : y.delivery = some d) (same : d.job.manifest = j.manifest)
  /-- It was delivered: handed to its receiver, unless that was forgotten. -/
  | delivered {j' : Job} {receiver : Option κ} (handed : .handed j' receiver ∈ y.log)
      (struck : .struck j' ∈ y.log) (same : j'.manifest = j.manifest)

/-- The workers of a workshop attend to everything that was taken on. -/
structure Attentive (m : StorageManager σ) (y : Workshop κ σ) : Prop where
  /-- A running pool has workers. -/
  manned : y.pool.phase = .running → y.pool.crew ≠ []
  /-- No worker has ended. -/
  live : ∀ w ∈ y.pool.crew, w.isGone = false
  /-- A worker that goes on reads all its mail, unless it waits for the storage manager. -/
  reads : ∀ k, k < y.pool.crew.length → ∃ n w', ((List.replicate n (.work k)).foldl (next m)
    y).pool.crew[k]? = some w' ∧ ((w'.duty = .idle ∧ w'.queue = []) ∨
      w'.Waits m ((List.replicate n (.work k)).foldl (next m) y).ground)
  /-- Every job that was taken on is in one place. -/
  conserved : takings y.log = droppings y.log + y.inFlight
  once : y.inFlight.Nodup
  placed : ∀ j, .taken j ∈ y.log → y.Placed j
  /-- None is dropped. -/
  no_stray : ∀ j, .stray j ∉ y.log
  /-- Acts that nothing interrupts are the calls that they make up. -/
  uninterrupted : y.Uninterrupted m

/-- A job that was taken on and not dropped is in flight or was delivered. -/
theorem Booked.placed (h : y.Booked) (hlive : ∀ w ∈ y.pool.crew, w.isGone = false)
    (hreceipted : y.Receipted) {j : Job} (hj : .taken j ∈ y.log) : y.Placed j := by
  have htaken : j.manifest ∈ takings y.log := by
    refine Multiset.mem_coe.mpr (List.mem_map_of_mem ?_)
    exact List.mem_filterMap.mpr ⟨_, hj, rfl⟩
  rw [h.recorded.conserved, Multiset.mem_add] at htaken
  rcases htaken with hdropped | hflight
  · obtain ⟨j', hj', hsame⟩ := List.mem_map.mp (Multiset.mem_coe.mp hdropped)
    obtain ⟨e, he, hentry⟩ := List.mem_filterMap.mp hj'
    cases e with
    | struck j'' =>
      cases hentry
      obtain ⟨receiver, hhanded⟩ := hreceipted.struck _ he
      exact .delivered hhanded he hsame
    | stray j'' =>
      obtain ⟨newer, older, hsplit⟩ := List.append_of_mem he
      exact absurd (h.recorded.handed newer _ older hsplit) id
    | _ => cases hentry
  · unfold inFlight at hflight
    rw [Multiset.mem_add, Multiset.mem_add, Multiset.mem_add] at hflight
    rcases hflight with ((hsending | hcrew) | hfinished) | hfetched
    · obtain ⟨j', hj', hsame⟩ := List.mem_map.mp (Multiset.mem_coe.mp hsending)
      obtain ⟨e, he, herrand⟩ := List.mem_filterMap.mp hj'
      cases e with
      | dispatch j'' =>
        cases herrand
        exact .sending he hsame
      | post k s => cases herrand
    · obtain ⟨w, hw, hline⟩ := List.mem_flatMap.mp (Multiset.mem_coe.mp hcrew)
      exact .attended hw (hlive w hw) (mem_jobsIn.mp hline)
    · obtain ⟨j', hj', hsame⟩ := List.mem_map.mp (Multiset.mem_coe.mp hfinished)
      exact .finished hj' hsame
    · obtain ⟨d, hd, hsame⟩ := List.mem_map.mp (Multiset.mem_coe.mp hfetched)
      exact .fetched (Option.mem_toList.mp hd) hsame

/-- Awake workers that are left alone read all their mail, unless they wait for the storage
manager. -/
theorem Awake.reads (h : y.Awake) {k : ℕ} (hk : k < y.pool.crew.length) :
    ∃ n w', ((List.replicate n (.work k)).foldl (next m) y).pool.crew[k]? = some w' ∧
      ((w'.duty = .idle ∧ w'.queue = []) ∨
        w'.Waits m ((List.replicate n (.work k)).foldl (next m) y).ground) := by
  have hawake (n : ℕ) : ((List.replicate n (.work k)).foldl (next m) y).Awake := by
    induction n with
    | zero => exact h
    | succ n ih =>
      rw [List.replicate_succ', List.foldl_concat]
      exact ih.effect (effect_next m _ _) rfl
  obtain ⟨n, log, hworks⟩ := exists_works m y k
  obtain ⟨w', hw', hrest⟩ := step_rested m y (List.getElem?_eq_getElem hk) log
  rw [← hworks] at hw' hrest
  refine ⟨n, w', hw', ?_⟩
  have hlive := ((hawake n).workers w' (List.mem_of_getElem? hw')).not_gone
  rcases Worker.step_eq_none_iff.mp hrest with hgone | hidle | hwaits
  · rw [hlive] at hgone
    cases hgone
  · exact Or.inl hidle
  · exact Or.inr hwaits

/-- In every run of a workshop whose pool is not shut down, and whose workers are not told to stop
while it is running, they attend to everything that is taken on. -/
theorem attentive_after (m : StorageManager σ) (settings : Settings) (loop : EventLoop)
    (ground : Surroundings σ) (acts : List (Act κ σ)) (hstop : .stop ∉ acts)
    (htold : Untold m settings loop ground acts) :
    (after m settings loop ground acts).Attentive m := by
  suffices hinv : (after m settings loop ground acts).Open ∧
      (after m settings loop ground acts).Awake ∧
      (after m settings loop ground acts).Receipted by
    obtain ⟨hopen, hawake, hreceipted⟩ := hinv
    have hagreed := agreed_of hopen.booked hawake m
    exact ⟨fun hrunning => hopen.booked.manned.crew_ne_nil (Or.inl hrunning), hagreed.not_gone,
      fun k hk => hawake.reads hk, hagreed.conserved, hagreed.once,
      fun j hj => hopen.booked.placed hagreed.not_gone hreceipted hj, hagreed.no_stray,
      hagreed.uninterrupted⟩
  induction acts using List.reverseRecOn with
  | nil =>
    refine ⟨⟨booked_create settings loop ground, by rintro ⟨⟩, fun _ => rfl⟩, ⟨?_, ?_⟩, ⟨?_, ?_⟩⟩
    · intro w hw
      cases hw
    · intro k hk
      cases hk
    · intro j hj
      cases hj
    · intro j receiver hj
      cases hj
  | append_singleton acts a ih =>
    obtain ⟨hopen, hawake, hreceipted⟩ :=
      ih (fun hmem => hstop (List.mem_append_left _ hmem)) htold.of_concat
    have ha : a ≠ .stop := by
      rintro rfl
      exact hstop (List.mem_append_right _ (List.mem_singleton.mpr rfl))
    have heffect := effect_next m (after m settings loop ground acts) a
    rw [after_concat]
    cases hkeeps : Act.keepsOpen a with
    | true => exact ⟨hopen.next m ha, hawake.effect heffect hkeeps, hreceipted.effect heffect⟩
    | false =>
      rw [next_eq_of_closing hopen hkeeps ha fun hbroadcast => htold acts [] (by rw [hbroadcast])]
      exact ⟨hopen, hawake, hreceipted⟩

/-- Workers are told to stop before there are any. Then a pool is started, takes on two items whose
sources are missing, and one of them comes back. -/
def attendingRun : List (Act Unit Shelf) :=
  let item := Item.fresh (.file ⟨"/from"⟩) (.inl ⟨"/to"⟩)
  [.broadcast .stop, .start ⟨2, 0⟩ .nobody, .submit ⟨1⟩ () [item, item], .run, .run,
    .broadcast .clean, .run, .work 0, .work 0, .fetch, .address, .strike, .run]

/-- The workers attend to both items. -/
theorem attentive_after_attendingRun :
    .stop ∉ attendingRun ∧
      Untold Shelf.manager Settings.defaults ⟨false, false, []⟩ ⟨.blank, .ofMedia [] none false⟩
        attendingRun ∧
      (after Shelf.manager Settings.defaults ⟨false, false, []⟩ ⟨.blank, .ofMedia [] none false⟩
        attendingRun).Attentive Shelf.manager := by
  have hstop : .stop ∉ attendingRun := by simp [attendingRun]
  have htold : Untold Shelf.manager Settings.defaults ⟨false, false, []⟩
      ⟨.blank, .ofMedia [] none false⟩ attendingRun := by
    intro before later hsplit
    cases before with
    | nil => exact PoolPhase.noConfusion
    | cons a before =>
      have hmem : .broadcast .stop ∈ attendingRun.tail := by
        rw [hsplit]
        simp
      simp [attendingRun] at hmem
  exact ⟨hstop, htold, attentive_after _ _ _ _ _ hstop htold⟩

/-- A workshop in which the workers of a running pool are told to stop without the pool being shut
down, and which takes on an item afterwards. -/
def strandingWorkshop : Workshop Unit Shelf :=
  after Shelf.manager Settings.defaults ⟨false, false, []⟩ ⟨.blank, .ofMedia [] none false⟩
    [.start ⟨1, 0⟩ .nobody, .broadcast .stop, .run, .work 0,
      .submit ⟨1⟩ () [Item.fresh (.file ⟨"/from"⟩) (.inl ⟨"/to"⟩)], .run]

/-- That item, as it was taken on. -/
def strandedJob : Job := ⟨⟨1⟩, { Item.fresh (.file ⟨"/from"⟩) (.inl ⟨"/to"⟩) with tag := some 1 }⟩

/-- The pool is running and has taken on the item, but no worker that goes on has it. -/
theorem not_placed_strandedJob :
    strandingWorkshop.pool.phase = .running ∧ .taken strandedJob ∈ strandingWorkshop.log ∧
      strandingWorkshop.pool.crew.all Worker.isGone ∧ ¬ strandingWorkshop.Placed strandedJob := by
  have hgone : strandingWorkshop.pool.crew.all Worker.isGone := by decide +kernel
  refine ⟨rfl, List.mem_cons_self, hgone, ?_⟩
  intro hplaced
  cases hplaced with
  | sending errands same => cases errands
  | attended worker live line =>
    rw [List.all_eq_true.mp hgone _ worker] at live
    cases live
  | finished completed same => cases completed
  | fetched delivery same => cases delivery
  | @delivered j receiver handed struck same =>
    have hlog : strandingWorkshop.log = [.taken strandedJob, .opened ⟨1⟩ ()] := rfl
    rw [hlog] at struck
    simp at struck

end Workshop

end Haulage
