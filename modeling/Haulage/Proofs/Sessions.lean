import Haulage.Proofs.Staging

/-!
# Opening and closing sessions

A session is opened when it begins its staged copy, and closed when the staged
copy is moved to the destination or removed. `Clear.start_started` says that an
opening leaves the beginning of a staged copy or nothing; `commit_committed` and
`abandon_bare` say that nothing of the staged copy is left once the session is
closed, and that a commit that succeeds brings the whole payload to the
destination.
-/

namespace Haulage.Session

open Disk

variable {P : Location → Prop} {u t t' : Tree} {d : Path} {init : List String} {n : String}
  {dir : Location}

/-! ## Opening -/

/-- The payload can be read, and reads in `t` as it does on the ground. -/
inductive Offers (u t : Tree) : Payload → Prop
  | buffer {data : Bytes} : Offers u t (.buffer data)
  | file {source : Path} {s : Location} {id : Nat} (hsource : u.resolve .reach source = .ok s)
      (hid : u.lookup s = some (.file id)) (hsource' : t.resolve .reach source = .ok s)
      (hid' : t.lookup s = some (.file id)) (hdata : t.data id = u.data id) :
      Offers u t (.file source)
  | directory {source : Path} {s : Location} (hsource : u.resolve .reach source = .ok s)
      (hdir : u.lookup s = some .directory) (hsource' : t.resolve .reach source = .ok s)
      (hdir' : t.lookup s = some .directory) (hentries : t.entriesBelow s = u.entriesBelow s) :
      Offers u t (.directory source)

theorem hasParents_staged (hd : d.EndsIn init n) (h : t.HasParents d) :
    t.HasParents (staged d) := by
  intro q hq
  rw [hd.staged.parent?_eq, ← hd.parent?_eq] at hq
  exact h q hq

/-- What opening a session leaves: nothing was changed, or the staged copy was begun. -/
inductive Started (u t : Tree) (d : Path) (n : String) (p : Payload) :
    Except CopyFailure Session × Tree → Prop
  | failed (f : CopyFailure) : Started u t d n p (.error f, t)
  | begun {dir : Location} {s : Session} {t' : Tree}
      (hseat : t.Seats (staged d) dir (n ++ ".mlc.partial"))
      (hc : t.Changes (stageAt dir n <+: ·) t') (hs : Suits u t' d (stageAt dir n) p s) :
      Started u t d n p (.ok s, t')

/-- The conditions under which a staged copy is begun: the directory around it exists, and
nothing stands in its place. -/
structure Clear (t : Tree) (d : Path) (init : List String) (n : String) : Prop where
  endsIn : d.EndsIn init n
  parents : t.HasParents d
  free (x : Node) : t.linkStatus (staged d) ≠ .ok x
  bare {dir : Location} (h : t.Seats (staged d) dir (n ++ ".mlc.partial")) :
    t.Bare (stageAt dir n)
  numbered : t.Numbered

namespace Clear

theorem dropStaged_eq (h : Clear t d init n) : dropStaged t d = t :=
  Tree.discard_of_free h.free

/-- The staged file is created, or nothing is. -/
theorem create_cases (h : Clear t d init n) :
    (∃ e, t.create (staged d) = .error e) ∨
      ∃ dir, t.Seats (staged d) dir (n ++ ".mlc.partial") ∧
        t.create (staged d) = .ok (t.addFile (stageAt dir n)) ∧
        t.Changes (stageAt dir n <+: ·) (t.addFile (stageAt dir n)).2 ∧
        (t.addFile (stageAt dir n)).2.lookup (stageAt dir n) = some (.file t.files.size) ∧
        (t.addFile (stageAt dir n)).2.Holds (stageAt dir n) (alone (.file ⟨.empty, none⟩)) := by
  cases hmake : t.create (staged d) with
  | error e => exact .inl ⟨e, rfl⟩
  | ok x =>
    obtain ⟨dir, hseat⟩ := Tree.seats_of_create h.endsIn.staged hmake
    have hvacant := hseat.create_vacant (hseat.lookup_eq_none h.free)
    rw [hmake] at hvacant
    have hne := stageAt_ne_nil dir n
    have hnone := Tree.bare_iff_holds.mp (h.bare hseat)
    have hroot : stageAt dir n ++ [] ≠ [] := by rwa [List.append_nil]
    have hadd := hnone.addFile h.numbered hroot
    rw [List.append_nil] at hadd
    exact .inr ⟨dir, hseat, hvacant, Tree.changes_addFile hne (List.prefix_refl _),
      by rw [Tree.lookup_addFile t _ hne, if_pos rfl], hadd⟩

theorem openBuffer_started (h : Clear t d init n) (data : Bytes) :
    Started u t d n (.buffer data) (openBuffer t data d) := by
  rcases h.create_cases with ⟨e, he⟩ | ⟨dir, hseat, hmake, hc, hlook, hholds⟩
  · have hopen : openBuffer t data d = (.error (.atDestination e), t) := by
      simp [openBuffer, h.parents.makeParents_eq, he, h.dropStaged_eq]
    exact hopen ▸ .failed _
  · have hopen : openBuffer t data d =
        (.ok (.buffer data 0 t.files.size d), (t.addFile (stageAt dir n)).2) := by
      simp [openBuffer, h.parents.makeParents_eq, hmake, Tree.addFile]
    rw [← Bytes.slice_zero data] at hholds
    exact hopen ▸ .begun hseat hc (.buffer (Nat.zero_le _) hlook hholds)

theorem openFile_started (h : Clear t d init n) {source : Path} {s : Location} {id : Nat}
    (hsource : u.resolve .reach source = .ok s) (hid : u.lookup s = some (.file id))
    (hsource' : t.resolve .reach source = .ok s) (hid' : t.lookup s = some (.file id))
    (hdata : t.data id = u.data id) :
    Started u t d n (.file source) (openFile t source d) := by
  have hread : t.openRead source = .ok (.file id) := by
    simp only [Tree.openRead, hsource', hid']
  rcases h.create_cases with ⟨e, he⟩ | ⟨dir, hseat, hmake, hc, hlook, hholds⟩
  · have hopen : openFile t source d = (.error (.atDestination e), t) := by
      simp [openFile, startCopy, hread, h.parents.makeParents_eq, he, h.dropStaged_eq]
    exact hopen ▸ .failed _
  · have hopen : openFile t source d =
        (.ok (.file ⟨.file id, t.files.size, 0, (u.data id).modified⟩ d),
          (t.addFile (stageAt dir n)).2) := by
      simp [openFile, startCopy, hread, h.parents.makeParents_eq, hmake, Tree.addFile,
        handleModified, hdata]
    rw [← Bytes.slice_zero (u.data id).bytes] at hholds
    exact hopen ▸ .begun hseat hc (.file hsource hid (Nat.zero_le _) hlook hholds)

theorem openDirectory_started (h : Clear t d init n) {source : Path} {s : Location}
    (hsource : u.resolve .reach source = .ok s) (hdir : u.lookup s = some .directory)
    (hsource' : t.resolve .reach source = .ok s) (hdir' : t.lookup s = some .directory)
    (hentries : t.entriesBelow s = u.entriesBelow s) :
    Started u t d n (.directory source) (openDirectory t source d) := by
  cases hlist : t.listing source with
  | error e =>
    have hopen : openDirectory t source d =
        (.error ⟨.source, .worded (e = .noEntry) e.text⟩, t) := by
      simp [openDirectory, hlist]
    exact hopen ▸ .failed _
  | ok entries =>
    have hagenda : entries.filterMap pendingOf = agenda u s := by
      rw [agenda_of_listing hsource' hdir' hlist, agenda, agenda, hentries]
    rcases Tree.makeDirectories_cases h.endsIn.staged (hasParents_staged h.endsIn h.parents)
      h.free with ⟨dir, hseat, hmake⟩ | ⟨e, hmake⟩
    · have hne := stageAt_ne_nil dir n
      have hopen : openDirectory t source d = (.ok (.directory source (agenda u s) none d),
          t.insert (stageAt dir n) .directory) := by
        simp [openDirectory, hlist, h.parents.makeParents_eq, hmake, hagenda, stageAt]
      have hnone := Tree.bare_iff_holds.mp (h.bare hseat)
      have hroot : stageAt dir n ++ [] ≠ [] := by rwa [List.append_nil]
      have hmade := hnone.insert hroot
      have hempty : Function.update (fun _ => none) [] (some .directory) = copied u s [] := by
        funext rel
        by_cases hrel : rel = []
        · rw [hrel, Function.update_self, copied_nil]
        · rw [Function.update_of_ne hrel, copied, if_neg hrel]
          rfl
      rw [List.append_nil, hempty] at hmade
      exact hopen ▸ .begun hseat (Tree.changes_insert_directory hne (List.prefix_refl _))
        (.between hsource hdir (List.nil_append _).symm (by simp) hmade)
    · have hopen : openDirectory t source d = (.error (.atDestination e), t) := by
        simp [openDirectory, hlist, h.parents.makeParents_eq, hmake, h.dropStaged_eq]
      exact hopen ▸ .failed _

/-- Whatever is to be transferred, opening the session begins the staged copy or does nothing. -/
theorem start_started (h : Clear t d init n) {p : Payload} (hoffer : Offers u t p) :
    Started u t d n p (start t p d) := by
  cases hoffer with
  | buffer => exact h.openBuffer_started _
  | file hsource hid hsource' hid' hdata =>
    exact h.openFile_started hsource hid hsource' hid' hdata
  | directory hsource hdir hsource' hdir' hentries =>
    exact h.openDirectory_started hsource hdir hsource' hdir' hentries

end Clear

/-! ## Closing -/

/-- A session that is given up leaves nothing behind. -/
theorem abandon_bare (hb : Berth P u d init n dir) (hag : u.Agrees P t)
    (hclear : Clearable t (stageAt dir n)) {s : Session} (hs : s.destination = d) :
    t.Changes (stageAt dir n <+: ·) (s.abandon t) ∧ (s.abandon t).Bare (stageAt dir n) := by
  have hseat := hb.seats.mono (hag.keeps fun _ => hb.bare)
  have hne := stageAt_ne_nil dir n
  have hself : stageAt dir n <+: stageAt dir n := List.prefix_refl _
  unfold abandon dropStaged
  rw [hs]
  cases hlook : t.lookup (stageAt dir n) with
  | none =>
    rw [Tree.discard_of_free (hseat.linkStatus_of_vacant hlook)]
    refine ⟨.refl _ _, ?_⟩
    rintro m ⟨rel, rfl⟩
    by_cases hrel : rel = []
    · rw [hrel, List.append_nil, hlook]
    · refine hclear.elim (fun hdir => ?_) fun hnone => hnone rel hrel
      rw [hlook] at hdir
      simp at hdir
  | some e =>
    by_cases he : e = .directory
    · subst he
      have hc : t.Changes (stageAt dir n <+: ·) (t.eraseBelow (stageAt dir n)) :=
        Tree.changes_eraseBelow fun _ h => h
      have hseat' := hb.seats.mono
        ((hag.trans (hc.toAgrees.mono fun _ => hb.covers)).keeps fun _ => hb.bare)
      rw [hseat.discard_directory hseat' hlook]
      exact ⟨hc.trans (Tree.changes_erase hne hself), Tree.bare_discarded t hne⟩
    · rw [hseat.discard_other hlook he]
      have hbelow : ∀ rel, rel ≠ [] → t.lookup (stageAt dir n ++ rel) = none := by
        refine hclear.resolve_left fun hdir => he ?_
        rw [hlook] at hdir
        exact Option.some.inj hdir
      exact ⟨Tree.changes_erase hne hself, Tree.bare_erase hne hbelow⟩

/-- Just before it is renamed, the staged copy is what was to be transferred. -/
theorem timed_holds (hb : Berth P u d init n dir) (hag : u.Agrees P t) (hnum : t.Numbered)
    {p : Payload} {s : Session} (hs : Suits u t d (stageAt dir n) p s) (hend : Exhausted u s) :
    t.Changes (stageAt dir n <+: ·) (s.timed t) ∧
      (∀ m, (s.timed t).lookup m = t.lookup m) ∧
      (s.timed t).Holds (stageAt dir n) (p.image u) := by
  cases hs with
  | buffer hpos hlook hholds =>
    rw [Bytes.slice_of_size_le hend] at hholds
    exact ⟨.refl _ _, fun _ => rfl, hholds⟩
  | @file source s id target position hsource hid hpos hlook hholds =>
    have hseat := hb.seats.mono (hag.keeps fun _ => hb.bare)
    have hroot : t.lookup (stageAt dir n ++ []) = some (.file target) := by rwa [List.append_nil]
    rw [Bytes.slice_of_size_le (hend id rfl)] at hholds
    have hdata := hholds.file hroot
    have hbytes : (t.data target).bytes = (u.data id).bytes := by
      rw [← Node.file.inj (Option.some.inj hdata)]
    have himage : Payload.image u (.file source) = alone (.file (u.data id)) := by
      simp [Payload.image, Tree.status, hsource, Tree.node?_of_file hid]
    have hset := hseat.setModified_file hlook (u.data id).modified
    have htimed : Session.timed t (.file ⟨.file id, target, position, (u.data id).modified⟩ d) =
        t.setData target (u.data id) := by
      simp only [Session.timed, hset, hbytes]
      rfl
    have hdone := hholds.setData hnum hroot (u.data id)
    rw [update_alone] at hdone
    rw [htimed, himage]
    exact ⟨Tree.changes_setData _ fun m hm => hholds.sole hroot hm ▸ List.prefix_append _ _,
      fun _ => rfl, hdone⟩
  | @between source s made pending hsource hdir hsplit hfit hholds =>
    obtain ⟨rfl, -⟩ := hend
    rw [List.append_nil] at hsplit
    rw [← hsplit, copied_agenda hb.sound hdir] at hholds
    have himage : Payload.image u (.directory source) =
        fun rel => withoutLink (u.node? (s ++ rel)) := by
      simp only [Payload.image, hsource]
    rw [himage]
    exact ⟨.refl _ _, fun _ => rfl, hholds⟩
  | within => simp [Exhausted] at hend

/-- What committing a session leaves: all that was to be transferred stands at the destination,
or the staged copy is gone. -/
inductive Committed (u t : Tree) (dir : Location) (n : String) (p : Payload) :
    Except CopyFailure Unit × Tree → Prop
  | published {t' : Tree} (hc : t.Changes (fun m => stageAt dir n <+: m ∨ dir ++ [n] <+: m) t')
      (hholds : t'.Holds (dir ++ [n]) (p.image u)) (hbare : t'.Bare (stageAt dir n))
      (hkind : ∀ e, t.lookup (dir ++ [n]) = some e → e ≠ .directory →
        p.image u [] ≠ some .directory) :
      Committed u t dir n p (.ok (), t')
  | dropped {f : CopyFailure} {t' : Tree} (hc : t.Changes (stageAt dir n <+: ·) t')
      (hbare : t'.Bare (stageAt dir n)) : Committed u t dir n p (.error f, t')

theorem commit_committed (hb : Berth P u d init n dir) (hag : u.Agrees P t) (hnum : t.Numbered)
    {p : Payload} {s : Session} (hs : Suits u t d (stageAt dir n) p s) (hend : Exhausted u s) :
    Committed u t dir n p (s.commit t) := by
  obtain ⟨hc, hlook, hholds⟩ := timed_holds hb hag hnum hs hend
  have hag' := hag.trans (hc.toAgrees.mono fun _ => hb.covers)
  have hkeeps := hag'.keeps fun _ => hb.bare
  obtain ⟨hapart, hapart'⟩ := stageAt_apart dir n
  have hstage := stageAt_ne_nil dir n
  have hnil : dir ++ [n] ≠ [] := by simp
  cases hrename : (s.timed t).rename (staged d) d with
  | ok t' =>
    have hcommit : s.commit t = (.ok (), t') := by simp [commit, hs.destination_eq, hrename]
    have hne : stageAt dir n ≠ dir ++ [n] := fun h => hapart (h ▸ List.prefix_refl _)
    obtain ⟨hmoved, hkind⟩ :=
      (hb.seats.mono hkeeps).rename_ok (hb.seats_destination.mono hkeeps) hne hrename
    rw [hcommit, hmoved]
    refine .published ((hc.mono fun _ => .inl).trans
        (Tree.changes_relocate hstage hnil (fun _ => .inl) fun _ => .inr))
      (hholds.relocate hstage hnil) (Tree.bare_relocate hstage hnil hapart' hapart)
      fun e he hne himage => hkind e ((hlook _).trans he) hne ?_
    have hroot := hholds.directory himage
    rwa [List.append_nil] at hroot
  | error e =>
    have hcommit : s.commit t = (.error (.atDestination e), s.abandon (s.timed t)) := by
      simp [commit, hs.destination_eq, hrename]
    have hclear : Clearable (s.timed t) (stageAt dir n) := by
      unfold Clearable
      simp only [hlook]
      exact hs.clearable hb.sound
    obtain ⟨hc', hbare⟩ := abandon_bare hb hag' hclear hs.destination_eq
    rw [hcommit]
    exact .dropped (hc.trans hc') hbare

end Haulage.Session
