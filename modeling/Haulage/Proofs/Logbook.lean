import Haulage.Proofs.Balance

/-!
# The log of a workshop

What the log of a balanced workshop says. Every job in flight was taken on, and since then it was
neither struck off nor handed over, except that the one in delivery may have been handed over; the
account of its client was not opened anew. The receiver of an account is the one with which it was
opened, unless the client was detached since. All this is `Recorded`, and `Recorded.book` says that
every booking keeps it.

`Booked` puts the books together; they stay in order until the pool is dismissed.
-/

namespace Haulage

namespace Entry

variable {κ : Type}

/-- Does the entry say that an account was opened for the client? -/
def opens (c : ClientId) : Entry κ → Bool
  | .opened c' _ => c' = c
  | _ => false

/-- Does the entry say that the job was handed over? -/
def hands (j : Job) : Entry κ → Bool
  | .handed j' _ => j'.manifest = j.manifest
  | _ => false

/-- Does the entry say that the job was struck off? -/
def strikes (j : Job) : Entry κ → Bool
  | .struck j' => j'.manifest = j.manifest
  | _ => false

/-- The job that was taken on, if the entry says so. -/
def taken? : Entry κ → Option Job
  | .taken j => some j
  | _ => none

/-- The job that left the workshop, if the entry says so. -/
def dropped? : Entry κ → Option Job
  | .struck j | .stray j => some j
  | _ => none

end Entry

/-! ## Parts of a log -/

namespace Log

variable {κ : Type}

/-- The entries since the latest that `p` is true of, or all if there is none. -/
def since (p : Entry κ → Bool) (log : List (Entry κ)) : List (Entry κ) := log.takeWhile (!p ·)

/-- The manifests of the jobs taken on. -/
def takings (log : List (Entry κ)) : Multiset Job :=
  ↑((log.filterMap Entry.taken?).map Job.manifest)

/-- The manifests of the jobs that left the workshop. -/
def droppings (log : List (Entry κ)) : Multiset Job :=
  ↑((log.filterMap Entry.dropped?).map Job.manifest)

/-- Each entry is what `P` says, given the entries before it. -/
def Throughout (P : Entry κ → List (Entry κ) → Prop) (log : List (Entry κ)) : Prop :=
  ∀ newer e older, log = newer ++ e :: older → P e older

/-- What is said since some entry in a longer log is new or was said before. -/
theorem mem_since_append {p : Entry κ → Bool} {entries log : List (Entry κ)} {e : Entry κ}
    (h : e ∈ since p (entries ++ log)) : e ∈ entries ∨ e ∈ since p log := by
  unfold since at h ⊢
  rw [List.takeWhile_append] at h
  split at h
  · rcases List.mem_append.mp h with hnew | hold
    · exact Or.inl hnew
    · exact Or.inr hold
  · exact Or.inl (List.takeWhile_subset _ h)

/-- What is said since an entry that is new is new. -/
theorem mem_since_append_of_any {p : Entry κ → Bool} {entries log : List (Entry κ)} {e : Entry κ}
    (hany : entries.any p) (h : e ∈ since p (entries ++ log)) : e ∈ entries := by
  unfold since at h
  induction entries with
  | nil => cases hany
  | cons x entries ih =>
    rw [List.cons_append, List.takeWhile_cons] at h
    split at h
    · rename_i hx
      rw [List.any_cons, Bool.or_eq_true] at hany
      rcases List.mem_cons.mp h with rfl | hrest
      · exact List.mem_cons_self
      · refine List.mem_cons_of_mem _ (ih (hany.resolve_left ?_) hrest)
        simpa using hx
    · cases h

/-- New entries that `p` is not true of come on top. -/
theorem since_append {p : Entry κ → Bool} {entries : List (Entry κ)}
    (hnone : ∀ e ∈ entries, p e = false) (log : List (Entry κ)) :
    since p (entries ++ log) = entries ++ since p log := by
  unfold since
  rw [List.takeWhile_append_of_pos]
  intro e he
  rw [hnone e he]
  rfl

/-- No entries, nothing to say. -/
theorem throughout_nil (P : Entry κ → List (Entry κ) → Prop) : Throughout P [] := by
  intro newer e older h
  exact absurd h (by simp)

/-- A longer log is as it should be if the new entry is. -/
theorem Throughout.cons {P : Entry κ → List (Entry κ) → Prop} {log : List (Entry κ)}
    (h : Throughout P log) {e : Entry κ} (he : P e log) : Throughout P (e :: log) := by
  intro newer e' older hsplit
  cases newer with
  | nil =>
    obtain ⟨rfl, rfl⟩ := List.cons.inj hsplit
    exact he
  | cons x newer =>
    obtain ⟨-, hrest⟩ := List.cons.inj hsplit
    exact h newer e' older hrest

/-- A longer log is as it should be if nothing is asked of the new entries. -/
theorem Throughout.append {P : Entry κ → List (Entry κ) → Prop} {log : List (Entry κ)}
    (h : Throughout P log) {entries : List (Entry κ)} (hnew : ∀ e ∈ entries, ∀ older, P e older) :
    Throughout P (entries ++ log) := by
  induction entries with
  | nil => exact h
  | cons e entries ih =>
    exact (ih fun e' he' => hnew e' (List.mem_cons_of_mem _ he')).cons
      (hnew e List.mem_cons_self _)

/-- What the log says of a job in flight: it was taken on, and since then it was not struck off, the
account of its client was not opened anew, and it was not handed over unless it is `handed`. -/
structure OnRecord (log : List (Entry κ)) (handed : Prop) (j : Job) : Prop where
  taken : log.any (Entry.takes j)
  not_struck : ∀ e ∈ since (Entry.takes j) log, e.strikes j = false
  not_opened : ∀ e ∈ since (Entry.takes j) log, e.opens j.client = false
  handed_of : ∀ e ∈ since (Entry.takes j) log, e.hands j → handed

/-- What the log says of the receiver of an account: the account was opened with it, or the receiver
was forgotten since. -/
def Backed (log : List (Entry κ)) (c : ClientId) (receiver : Option κ) : Prop :=
  ∃ r, log.find? (Entry.opens c) = some (.opened c r) ∧
    (receiver = some r ∨ receiver = none ∧ .detached c ∈ since (Entry.opens c) log)

/-- The record of a manifest is the record of the job. -/
theorem OnRecord.of_manifest {log : List (Entry κ)} {handed : Prop} {j : Job}
    (h : OnRecord log handed j.manifest) : OnRecord log handed j :=
  ⟨h.taken, h.not_struck, h.not_opened, h.handed_of⟩

/-- A record may be weakened. -/
theorem OnRecord.mono {log : List (Entry κ)} {handed handed' : Prop} {j : Job}
    (h : OnRecord log handed j) (himp : handed → handed') : OnRecord log handed' j :=
  ⟨h.taken, h.not_struck, h.not_opened, fun e he hhands => himp (h.handed_of e he hhands)⟩

/-- Entries that do not concern a job leave its record as it is. -/
theorem OnRecord.append {log : List (Entry κ)} {handed handed' : Prop} {j : Job}
    (h : OnRecord log handed j) {entries : List (Entry κ)}
    (hstruck : ∀ e ∈ entries, e.strikes j = false)
    (hopened : ∀ e ∈ entries, e.opens j.client = false)
    (hhanded : ∀ e ∈ entries, e.hands j → handed') (himp : handed → handed') :
    OnRecord (entries ++ log) handed' j where
  taken := by
    rw [List.any_append, h.taken, Bool.or_true]
  not_struck e he := by
    rcases mem_since_append he with hnew | hold
    · exact hstruck e hnew
    · exact h.not_struck e hold
  not_opened e he := by
    rcases mem_since_append he with hnew | hold
    · exact hopened e hnew
    · exact h.not_opened e hold
  handed_of e he hhands := by
    rcases mem_since_append he with hnew | hold
    · exact hhanded e hnew hhands
    · exact himp (h.handed_of e hold hhands)

/-- A job that is taken on together with others has a clean record. -/
theorem onRecord_of_taking {jobs : List Job} {j : Job} (hj : j ∈ jobs.map Job.manifest)
    (log : List (Entry κ)) (handed : Prop) :
    OnRecord ((jobs.map Entry.taken).reverse ++ log) handed j := by
  obtain ⟨j', hj', rfl⟩ := List.mem_map.mp hj
  have hany : (jobs.map (@Entry.taken κ)).reverse.any (Entry.takes j'.manifest) := by
    rw [List.any_reverse, List.any_map]
    exact List.any_eq_true.mpr ⟨j', hj', by simp [Entry.takes]⟩
  have hnew : ∀ e ∈ since (Entry.takes j'.manifest) ((jobs.map Entry.taken).reverse ++ log),
      ∃ j'' ∈ jobs, e = .taken j'' := by
    intro e he
    have hmem := List.mem_reverse.mp (mem_since_append_of_any hany he)
    obtain ⟨j'', hj'', rfl⟩ := List.mem_map.mp hmem
    exact ⟨j'', hj'', rfl⟩
  refine ⟨?_, ?_, ?_, ?_⟩
  · rw [List.any_append, hany, Bool.true_or]
  · intro e he
    obtain ⟨j'', -, rfl⟩ := hnew e he
    rfl
  · intro e he
    obtain ⟨j'', -, rfl⟩ := hnew e he
    rfl
  · intro e he hhands
    obtain ⟨j'', -, rfl⟩ := hnew e he
    cases hhands

/-- Entries that do not open an account leave its receiver as it is. -/
theorem Backed.append {log : List (Entry κ)} {c : ClientId} {receiver : Option κ}
    (h : Backed log c receiver) {entries : List (Entry κ)}
    (hnew : ∀ e ∈ entries, e.opens c = false) : Backed (entries ++ log) c receiver := by
  obtain ⟨r, hfind, hreceiver⟩ := h
  have hnone : entries.find? (Entry.opens c) = none :=
    List.find?_eq_none.mpr fun e he => by rw [hnew e he]; exact Bool.false_ne_true
  refine ⟨r, by rw [List.find?_append, hnone, Option.none_or, hfind], ?_⟩
  rw [since_append hnew]
  rcases hreceiver with hsome | ⟨hgone, hdetached⟩
  · exact Or.inl hsome
  · exact Or.inr ⟨hgone, List.mem_append_right _ hdetached⟩

/-- A job is handed over to the receiver of its client, once, while it is in flight; no job is ever
dropped because its client has no account. -/
def HandedRightly : Entry κ → List (Entry κ) → Prop
  | .handed j receiver, older => OnRecord older False j ∧ Backed older j.client receiver
  | .stray _, _ => False
  | .opened _ _, _ | .taken _, _ | .cancelled _, _ | .detached _, _ | .finished _, _
  | .struck _, _ => True

/-- The jobs taken on, in a longer log. -/
theorem takings_append (entries log : List (Entry κ)) :
    takings (entries ++ log) = takings entries + takings log := by
  simp [takings]

/-- The jobs that left the workshop, in a longer log. -/
theorem droppings_append (entries log : List (Entry κ)) :
    droppings (entries ++ log) = droppings entries + droppings log := by
  simp [droppings]

/-- The jobs that were just taken on. -/
theorem takings_taken (jobs : List Job) :
    takings (jobs.map (@Entry.taken κ)).reverse = ↑(jobs.map Job.manifest) := by
  unfold takings
  rw [List.filterMap_reverse, List.filterMap_map, List.map_reverse, Multiset.coe_reverse]
  congr 1
  exact congrArg _ List.filterMap_some

/-- No job left the workshop when some were taken on. -/
theorem droppings_taken (jobs : List Job) :
    droppings (jobs.map (@Entry.taken κ)).reverse = 0 := by
  unfold droppings
  rw [List.filterMap_reverse, List.filterMap_map]
  have hnone : (Entry.dropped? ∘ @Entry.taken κ) = fun _ => none := rfl
  rw [hnone]
  simp

/-- Entries that take on no job. -/
theorem takings_eq_zero {entries : List (Entry κ)} (h : ∀ e ∈ entries, e.taken? = none) :
    takings entries = 0 := by
  unfold takings
  rw [List.filterMap_eq_nil_iff.mpr h]
  rfl

/-- Entries by which no job leaves the workshop. -/
theorem droppings_eq_zero {entries : List (Entry κ)} (h : ∀ e ∈ entries, e.dropped? = none) :
    droppings entries = 0 := by
  unfold droppings
  rw [List.filterMap_eq_nil_iff.mpr h]
  rfl

end Log

namespace Workshop

open Log

variable {κ σ : Type}

/-- The log tells what became of every job. -/
structure Recorded (y : Workshop κ σ) : Prop where
  /-- Every job taken on either left the workshop or is in flight, in one place. -/
  conserved : takings y.log = droppings y.log + y.inFlight
  jobs : ∀ j ∈ y.inFlight, OnRecord y.log (y.IsHanded j) j
  accounts : ∀ c a, y.pool.clients.find? c = some a → Backed y.log c a.receiver
  handed : Throughout HandedRightly y.log

/-- Entries that concern no job in flight keep the records. -/
theorem Recorded.jobs_append {y y' : Workshop κ σ} (h : y.Recorded) {entries : List (Entry κ)}
    (hlog : y'.log = entries ++ y.log) {j : Job} (hj : j ∈ y.inFlight)
    (hnew : ∀ e ∈ entries, e.strikes j = false ∧ e.opens j.client = false ∧ e.hands j = false)
    (handed : y.IsHanded j → y'.IsHanded j) : OnRecord y'.log (y'.IsHanded j) j := by
  rw [hlog]
  refine (h.jobs j hj).append (fun e he => (hnew e he).1) (fun e he => (hnew e he).2.1) ?_ handed
  intro e he hhands
  rw [(hnew e he).2.2] at hhands
  cases hhands

/-- Taking on jobs keeps the records, if the accounts are backed afterwards. -/
theorem Recorded.take {y : Workshop κ σ} (h : y.Recorded) (calm : y.errands = [])
    {clients : Clients κ} {jobs : List Job} {entries : List (Entry κ)}
    (hopens : ∀ e ∈ entries, ∃ c r, e = .opened c r ∧ ∀ j ∈ y.inFlight, j.client ≠ c)
    (accounts : ∀ c a, clients.find? c = some a →
      Backed ((jobs.map Entry.taken).reverse ++ entries ++ y.log) c a.receiver) :
    (y.take clients jobs entries).Recorded := by
  have hflight := inFlight_take calm clients jobs entries
  have htakings : takings entries = 0 := takings_eq_zero fun e he => by
    obtain ⟨c, r, rfl, -⟩ := hopens e he
    rfl
  have hdroppings : droppings entries = 0 := droppings_eq_zero fun e he => by
    obtain ⟨c, r, rfl, -⟩ := hopens e he
    rfl
  refine ⟨?_, ?_, accounts, ?_⟩
  · change takings ((jobs.map Entry.taken).reverse ++ entries ++ y.log) =
      droppings ((jobs.map Entry.taken).reverse ++ entries ++ y.log) + _
    rw [hflight, takings_append, takings_append, droppings_append, droppings_append, takings_taken,
      droppings_taken, htakings, hdroppings, h.conserved]
    abel
  · intro j hj
    rw [hflight, Multiset.mem_add] at hj
    rcases hj with hnew | hold
    · change OnRecord ((jobs.map Entry.taken).reverse ++ entries ++ y.log) _ j
      rw [List.append_assoc]
      exact onRecord_of_taking (Multiset.mem_coe.mp hnew) _ _
    · refine h.jobs_append rfl hold ?_ id
      intro e he
      rcases List.mem_append.mp he with htaken | hentry
      · obtain ⟨j', -, rfl⟩ := List.mem_map.mp (List.mem_reverse.mp htaken)
        exact ⟨rfl, rfl, rfl⟩
      · obtain ⟨c, r, rfl, hothers⟩ := hopens e hentry
        exact ⟨rfl, decide_eq_false (Ne.symm (hothers j hold)), rfl⟩
  · refine h.handed.append fun e he older => ?_
    rcases List.mem_append.mp he with htaken | hentry
    · obtain ⟨j', -, rfl⟩ := List.mem_map.mp (List.mem_reverse.mp htaken)
      trivial
    · obtain ⟨c, r, rfl, -⟩ := hopens e hentry
      trivial

/-- What does not concern the books keeps the records. -/
theorem Recorded.aside {y y' : Workshop κ σ} (h : y.Recorded) {entries : List (Entry κ)}
    (log : y'.log = entries ++ y.log) (entries_aside : ∀ e ∈ entries, e.isAside)
    (clients : y'.pool.clients = y.pool.clients) (flight : y'.inFlight = y.inFlight)
    (handed : ∀ j, y'.IsHanded j ↔ y.IsHanded j) : y'.Recorded := by
  have hnew : ∀ e ∈ entries, e.taken? = none ∧ e.dropped? = none ∧
      (∀ j, e.strikes j = false ∧ e.hands j = false) ∧ (∀ c, e.opens c = false) ∧
      ∀ older, HandedRightly e older := by
    intro e he
    have haside := entries_aside e he
    cases e with
    | cancelled c => exact ⟨rfl, rfl, fun j => ⟨rfl, rfl⟩, fun c => rfl, fun older => trivial⟩
    | finished j => exact ⟨rfl, rfl, fun j => ⟨rfl, rfl⟩, fun c => rfl, fun older => trivial⟩
    | opened c r | taken j | detached c | handed j r | struck j | stray j => cases haside
  refine ⟨?_, ?_, ?_, ?_⟩
  · rw [log, flight, takings_append, droppings_append, h.conserved,
      takings_eq_zero fun e he => (hnew e he).1, droppings_eq_zero fun e he => (hnew e he).2.1,
      zero_add, zero_add]
  · intro j hj
    rw [flight] at hj
    refine h.jobs_append log hj (fun e he => ?_) (handed j).mpr
    exact ⟨((hnew e he).2.2.1 j).1, (hnew e he).2.2.2.1 _, ((hnew e he).2.2.1 j).2⟩
  · intro c a hfind
    rw [clients] at hfind
    rw [log]
    exact (h.accounts c a hfind).append fun e he => (hnew e he).2.2.2.1 c
  · rw [log]
    exact h.handed.append fun e he => (hnew e he).2.2.2.2

/-- Opening an account keeps the records. -/
theorem Recorded.opened {y : Workshop κ σ} (h : y.Recorded) (hbalanced : y.Balanced) {c : ClientId}
    (receiver : κ) {items : List Item} {tags : List Tag} {clients : Clients κ}
    (calm : y.errands = []) (unknown : y.pool.clients.find? c = none)
    (allocated : y.pool.clients.allocateTags items.length = some (tags, clients)) :
    (y.take (clients.insert c ⟨items.length, some receiver, tags⟩) (Pool.tagging c items tags)
      [.opened c receiver]).Recorded := by
  have hout := Clients.givenOut_of_allocateTags hbalanced.next_ne_zero allocated
  have hunknown : clients.find? c = none := (hout.find?_eq c).trans unknown
  have htaken (c' : ClientId) : ∀ e ∈ ((Pool.tagging c items tags).map
      (@Entry.taken κ)).reverse, e.opens c' = false := by
    intro e he
    obtain ⟨j, -, rfl⟩ := List.mem_map.mp (List.mem_reverse.mp he)
    rfl
  refine h.take calm ?_ ?_
  · intro e he
    exact ⟨c, receiver, List.mem_singleton.mp he, fun j hj => hbalanced.client_ne unknown hj⟩
  · intro c' a hfind
    rw [Clients.find?_insert hunknown] at hfind
    rw [List.append_assoc]
    refine Backed.append ?_ (htaken c')
    split at hfind
    · rename_i hc
      subst hc
      cases hfind
      refine ⟨receiver, ?_, Or.inl rfl⟩
      rw [List.singleton_append, List.find?_cons_of_pos (by simp [Entry.opens])]
    · rename_i hc
      rw [hout.find?_eq] at hfind
      refine (h.accounts c' a hfind).append fun e he => ?_
      rw [List.mem_singleton.mp he]
      exact decide_eq_false (Ne.symm hc)

/-- Adding an item to an account keeps the records. -/
theorem Recorded.added {y : Workshop κ σ} (h : y.Recorded) (hbalanced : y.Balanced) {c : ClientId}
    {i : Item} {account : Account κ} {tag : Tag} {clients : Clients κ} (calm : y.errands = [])
    (known : y.pool.clients.find? c = some account)
    (allocated : y.pool.clients.allocateTags 1 = some ([tag], clients)) :
    (y.take (clients.update c (Account.oneMore tag)) (Pool.tagging c [i] [tag]) []).Recorded := by
  have hout := Clients.givenOut_of_allocateTags hbalanced.next_ne_zero allocated
  refine h.take calm (fun e he => by cases he) ?_
  intro c' a hfind
  rw [List.append_nil]
  refine Backed.append ?_ fun e he => ?_
  · rw [Clients.find?_update (hout.keyed hbalanced.keyed), hout.find?_eq, hout.find?_eq] at hfind
    split at hfind
    · rename_i hc
      subst hc
      rw [known] at hfind
      cases hfind
      exact h.accounts c' account known
    · exact h.accounts c' a hfind
  · obtain ⟨j, -, rfl⟩ := List.mem_map.mp (List.mem_reverse.mp he)
    rfl

/-- Forgetting a receiver keeps the records. -/
theorem Recorded.detached {y : Workshop κ σ} (h : y.Recorded) (hbalanced : y.Balanced)
    (c : ClientId) :
    ({ y with pool := y.pool.detach c, log := .detached c :: y.log } : Workshop κ σ).Recorded := by
  refine ⟨h.conserved, ?_, ?_, h.handed.cons trivial⟩
  · intro j hj
    refine h.jobs_append (show _ = [Entry.detached c] ++ y.log from rfl) hj ?_ id
    intro e he
    rw [List.mem_singleton.mp he]
    exact ⟨rfl, rfl, rfl⟩
  · intro c' a hfind
    change (y.pool.clients.update c Account.detached).find? c' = some a at hfind
    rw [Clients.find?_update hbalanced.keyed] at hfind
    change Backed ([.detached c] ++ y.log) c' a.receiver
    have hnew : ∀ e ∈ [@Entry.detached κ c], e.opens c' = false := by
      intro e he
      rw [List.mem_singleton.mp he]
      rfl
    split at hfind
    · rename_i hc
      subst hc
      obtain ⟨a', hfind', hdetached⟩ := Option.bind_eq_some_iff.mp hfind
      cases hdetached
      obtain ⟨r, hopened, -⟩ := h.accounts c' a' hfind'
      refine ⟨r, hopened, Or.inr ⟨rfl, ?_⟩⟩
      rw [since_append hnew]
      exact List.mem_append_left _ (List.mem_singleton.mpr rfl)
    · exact (h.accounts c' a hfind).append hnew

/-- Handing a job over keeps the records. -/
theorem Recorded.handOver {y : Workshop κ σ} (h : y.Recorded) {j : Job} {a : Account κ}
    (delivery : y.delivery = some ⟨j, none⟩) (known : y.pool.clients.find? j.client = some a) :
    ({ y with
      delivery := some ⟨j, some a.receiver⟩, log := .handed j a.receiver :: y.log } :
      Workshop κ σ).Recorded := by
  have hflight : ({ y with
      delivery := some ⟨j, some a.receiver⟩, log := .handed j a.receiver :: y.log } :
      Workshop κ σ).inFlight = y.inFlight := by
    simp only [inFlight, delivery, Option.toList_some, List.map_cons, List.map_nil]
  have hunhanded (j' : Job) : ¬ y.IsHanded j' := by
    rintro ⟨j'', r, hdelivery, -⟩
    rw [delivery] at hdelivery
    cases hdelivery
  refine ⟨?_, ?_, ?_, h.handed.cons ⟨?_, h.accounts _ _ known⟩⟩
  · rw [hflight]
    exact h.conserved
  · intro j' hj'
    rw [hflight] at hj'
    change OnRecord ([.handed j a.receiver] ++ y.log) _ j'
    refine (h.jobs j' hj').append ?_ ?_ ?_ fun hhanded => absurd hhanded (hunhanded j')
    · intro e he
      rw [List.mem_singleton.mp he]
      rfl
    · intro e he
      rw [List.mem_singleton.mp he]
      rfl
    · intro e he hhands
      rw [List.mem_singleton.mp he] at hhands
      exact ⟨j, a.receiver, rfl, of_decide_eq_true hhands⟩
  · intro c a' hfind
    change Backed ([.handed j a.receiver] ++ y.log) c a'.receiver
    exact (h.accounts c a' hfind).append fun e he => by rw [List.mem_singleton.mp he]; rfl
  · have hmem : j.manifest ∈ y.inFlight := by
      rw [inFlight_of_delivery delivery]
      exact Multiset.mem_cons_self _ _
    exact (h.jobs _ hmem).of_manifest.mono fun hhanded => absurd hhanded (hunhanded _)

/-- Striking a job off keeps the records. -/
theorem Recorded.struck {y : Workshop κ σ} (h : y.Recorded) (hbalanced : y.Balanced) {j : Job}
    {r : Option κ} (delivery : y.delivery = some ⟨j, some r⟩) :
    ({ y with pool := y.pool.strike j, delivery := none, log := .struck j :: y.log } :
      Workshop κ σ).Recorded := by
  have hflight := inFlight_of_delivery delivery
  change y.inFlight = j.manifest ::ₘ ({ y with
    pool := y.pool.strike j, delivery := none, log := .struck j :: y.log } :
    Workshop κ σ).inFlight at hflight
  have hother : ∀ j' ∈ ({ y with
      pool := y.pool.strike j, delivery := none, log := .struck j :: y.log } :
      Workshop κ σ).inFlight, ¬ j.manifest = j'.manifest :=
    fun j' hj' => hbalanced.manifest_ne_of_delivery delivery hj'
  refine ⟨?_, ?_, ?_, h.handed.cons trivial⟩
  · change takings ([.struck j] ++ y.log) = droppings ([.struck j] ++ y.log) + _
    have htaken : takings [@Entry.struck κ j] = 0 := rfl
    have hdropped : droppings [@Entry.struck κ j] = {j.manifest} := rfl
    rw [takings_append, droppings_append, h.conserved, hflight, htaken, hdropped,
      ← Multiset.singleton_add]
    abel
  · intro j' hj'
    have hold : j' ∈ y.inFlight := by
      rw [hflight]
      exact Multiset.mem_cons_of_mem hj'
    change OnRecord ([.struck j] ++ y.log) _ j'
    refine (h.jobs j' hold).append ?_ ?_ ?_ ?_
    · intro e he
      rw [List.mem_singleton.mp he]
      exact decide_eq_false (hother j' hj')
    · intro e he
      rw [List.mem_singleton.mp he]
      rfl
    · intro e he hhands
      rw [List.mem_singleton.mp he] at hhands
      cases hhands
    · rintro ⟨j'', r', hdelivery, hmanifest⟩
      rw [delivery] at hdelivery
      cases hdelivery
      exact absurd hmanifest (hother j' hj')
  · intro c a hfind
    change (y.pool.clients.update j.client (Clients.handBack j.item.tag)).find? c = some a
      at hfind
    rw [Clients.find?_update hbalanced.keyed] at hfind
    change Backed ([.struck j] ++ y.log) c a.receiver
    refine Backed.append ?_ fun e he => by rw [List.mem_singleton.mp he]; rfl
    split at hfind
    · rename_i hc
      subst hc
      obtain ⟨a', hfind', hback⟩ := Option.bind_eq_some_iff.mp hfind
      have hreceiver : a.receiver = a'.receiver := by
        unfold Clients.handBack at hback
        split at hback
        · cases hback
        · cases hback
          rfl
      rw [hreceiver]
      exact h.accounts _ a' hfind'
    · exact h.accounts c a hfind

/-- Every booking keeps the records. -/
theorem Recorded.book {y y' : Workshop κ σ} (h : y.Recorded) (hbalanced : y.Balanced)
    (hbooking : Booking y y') : y'.Recorded := by
  cases hbooking with
  | aside log entries_aside clients flight handed =>
    exact h.aside log entries_aside clients flight handed
  | opened calm unknown items_ne allocated => exact h.opened hbalanced _ calm unknown allocated
  | added calm known allocated => exact h.added hbalanced calm known allocated
  | detached c => exact h.detached hbalanced c
  | handed delivery known => exact h.handOver delivery known
  | struck delivery => exact h.struck hbalanced delivery

/-- The records are right before anything happens. -/
theorem recorded_create (settings : Settings) (loop : EventLoop) (ground : Surroundings σ) :
    (create settings loop ground : Workshop κ σ).Recorded where
  conserved := rfl
  jobs j hj := absurd hj (Multiset.notMem_zero j)
  accounts c a hfind := by cases hfind
  handed := throughout_nil _

/-! ## The books -/

/-- The books of a workshop are in order: its table of clients and its log are right about the jobs
in flight, and there are workers for them. -/
structure Booked (y : Workshop κ σ) : Prop where
  manned : y.Manned
  balanced : y.Balanced
  recorded : y.Recorded

/-- The books are in order before anything happens. -/
theorem booked_create (settings : Settings) (loop : EventLoop) (ground : Surroundings σ) :
    (create settings loop ground : Workshop κ σ).Booked :=
  ⟨manned_create settings loop ground, balanced_create settings loop ground,
    recorded_create settings loop ground⟩

/-- Every act that does not dismiss the pool is a booking. -/
theorem Booked.booking {m : StorageManager σ} {y y' : Workshop κ σ} {a : Act κ σ} (h : y.Booked)
    (heffect : Effect m y a y') (hstays : a ≠ .dismiss) : Booking y y' :=
  h.balanced.booking h.manned heffect hstays

/-- It keeps the books in order. -/
theorem Booked.effect {m : StorageManager σ} {y y' : Workshop κ σ} {a : Act κ σ} (h : y.Booked)
    (heffect : Effect m y a y') (hstays : a ≠ .dismiss) : y'.Booked := by
  have hbooking := h.booking heffect hstays
  exact ⟨h.manned.effect heffect hstays, h.balanced.book hbooking,
    h.recorded.book h.balanced hbooking⟩

end Workshop

end Haulage
