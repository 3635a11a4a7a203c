import Haulage.Proofs.Ways
import Haulage.Item.Checks

/-!
# Operations at an entry

What the operations on a file tree do by path is said here by location: where a
path seats an entry, each operation answers by what stands there, and changes
that entry alone.
-/

namespace Haulage.Disk.Tree

variable {t t' : Tree} {p q : Path} {dir : Location} {n : String}

/-! ## Nodes -/

theorem node?_eq_none {l : Location} : t.node? l = none ↔ t.lookup l = none := by
  unfold node?
  split <;> simp [*]

theorem node?_of_directory {l : Location} (h : t.lookup l = some .directory) :
    t.node? l = some .directory := by
  simp [node?, h]

theorem node?_of_file {l : Location} {id : Nat} (h : t.lookup l = some (.file id)) :
    t.node? l = some (.file (t.data id)) := by
  simp [node?, h]

theorem lookup_of_node?_directory {l : Location} (h : t.node? l = some .directory) :
    t.lookup l = some .directory := by
  unfold node? at h
  split at h <;> simp_all

theorem lookup_of_node?_file {l : Location} {d : FileData} (h : t.node? l = some (.file d)) :
    ∃ id, t.lookup l = some (.file id) ∧ t.data id = d := by
  unfold node? at h
  split at h
  · simp at h
  · simp at h
  · simp at h
  · rename_i id hlook
    exact ⟨id, hlook, Node.file.inj (Option.some.inj h)⟩

theorem hasBelow_eraseBelow (t : Tree) (l : Location) :
    (t.eraseBelow l).hasBelow l = false := by
  have htop : (t.eraseBelow l).top = t.top.alter l fun b => ⟨b.value, .none⟩ := by
    cases l <;> rfl
  rw [hasBelow, htop, Branch.sub_alter]
  rfl

/-- An entry that was moved stood elsewhere, or stays where it is; it does not come to stand below
itself. -/
theorem moveEntry_cases {l m : Location} {slash : Bool} (h : t.moveEntry l m slash = .ok t') :
    ¬l <+: m.dropLast ∧ (l = m ∧ t' = t ∨ l ≠ m ∧ t' = t.relocate l m) := by
  unfold moveEntry at h
  split at h
  · simp at h
  split at h
  · simp at h
  split at h
  · simp at h
  rename_i hself
  refine ⟨by simpa using hself, ?_⟩
  split at h
  · simp at h
  split at h
  · rename_i hsame
    exact .inl ⟨hsame, (Except.ok.inj h).symm⟩
  rename_i hne
  right
  split at h
  · exact ⟨hne, (Except.ok.inj h).symm⟩
  · split at h
    · simp at h
    split at h
    · simp at h
    · exact ⟨hne, (Except.ok.inj h).symm⟩
  · split at h
    · simp at h
    · exact ⟨hne, (Except.ok.inj h).symm⟩

/-- Only what is no directory either comes to stand where something else than a directory stood. -/
theorem ne_directory_of_moveEntry {l m : Location} {slash : Bool} (hne : l ≠ m)
    (h : t.moveEntry l m slash = .ok t') {e : Entry} (hlook : t.lookup m = some e)
    (he : e ≠ .directory) : t.lookup l ≠ some .directory := by
  intro hdir
  unfold moveEntry at h
  rw [hdir, hlook] at h
  simp only [ne_eq, not_true_eq_false, decide_false, Bool.false_and, Bool.false_eq_true, if_false,
    if_true, if_neg hne] at h
  cases e with
  | directory => exact he rfl
  | file id => split_ifs at h
  | link target => split_ifs at h

/-! ## Looking -/

namespace Seats

/-- The entry is looked at itself, whatever it is. -/
theorem linkStatus_eq_ok (h : t.Seats p dir n) {x : Node} :
    t.linkStatus p = .ok x ↔ t.node? (dir ++ [n]) = some x := by
  unfold linkStatus resolve
  cases hlook : t.lookup (dir ++ [n]) with
  | none =>
    rw [h.place_vacant hlook, node?_eq_none.mpr hlook]
    simp
  | some e =>
    rw [h.place_found hlook (.inl rfl)]
    cases hnode : t.node? (dir ++ [n]) <;> simp [hnode]

theorem linkStatus_of_vacant (h : t.Seats p dir n) (hlook : t.lookup (dir ++ [n]) = none)
    (x : Node) : t.linkStatus p ≠ .ok x := by
  rw [Ne, h.linkStatus_eq_ok, node?_eq_none.mpr hlook]
  simp

/-- Nothing stands at a seat if nothing is seen there. -/
theorem lookup_eq_none (h : t.Seats p dir n) (hfree : ∀ x, t.linkStatus p ≠ .ok x) :
    t.lookup (dir ++ [n]) = none := by
  rw [← node?_eq_none]
  cases hnode : t.node? (dir ++ [n]) with
  | none => rfl
  | some x => exact absurd (h.linkStatus_eq_ok.mpr hnode) (hfree x)

theorem status_of_directory (h : t.Seats p dir n)
    (hlook : t.lookup (dir ++ [n]) = some .directory) : t.status p = .ok .directory := by
  rw [status, resolve, h.place_found hlook (.inr (by simp))]
  simp [node?_of_directory hlook]

theorem create_vacant (h : t.Seats p dir n) (hlook : t.lookup (dir ++ [n]) = none) :
    t.create p = .ok (t.addFile (dir ++ [n])) := by
  rw [create, h.place_vacant hlook]

theorem setModified_file (h : t.Seats p dir n) {id : Nat}
    (hlook : t.lookup (dir ++ [n]) = some (.file id)) (s : Option Stamp) :
    t.setModified p s = .ok (t.setData id ⟨(t.data id).bytes, s⟩) := by
  rw [setModified, resolve, h.place_found hlook (.inr (by simp))]
  simp [hlook]

end Seats

/-- Where nothing stands nothing is removed. -/
theorem discard_of_free (hfree : ∀ x, t.linkStatus p ≠ .ok x) : t.discard p = t := by
  unfold discard
  split
  · rename_i hx; exact absurd hx (hfree _)
  · rename_i hx; exact absurd hx (hfree _)
  · rfl

theorem seats_of_create {init : List String} (hp : p.EndsIn init n) {x : Nat × Tree}
    (h : t.create p = .ok x) : ∃ dir, t.Seats p dir n := by
  unfold create at h
  cases hplace : t.place .create p with
  | error e => simp [hplace] at h
  | ok y => exact seats_of_place hp hplace

theorem seats_of_linkStatus {init : List String} (hp : p.EndsIn init n) {x : Node}
    (h : t.linkStatus p = .ok x) : ∃ dir, t.Seats p dir n := by
  unfold linkStatus resolve at h
  cases hplace : t.place .entry p with
  | error e => simp [hplace] at h
  | ok y => exact seats_of_place hp hplace

namespace Seats

/-! ## Removal -/

theorem removeFile_eq (h : t.Seats p dir n) {e : Entry} (hlook : t.lookup (dir ++ [n]) = some e)
    (he : e ≠ .directory) : t.removeFile p = .ok (t.erase (dir ++ [n])) := by
  have hsize : ¬n.utf8ByteSize > maxName := Nat.not_lt.mpr h.size_le
  rw [removeFile, h.holder_eq, h.lastStep_eq]
  cases e with
  | directory => exact absurd rfl he
  | file id => simp [hsize, hlook, h.endsWithSlash_eq]
  | link target => simp [hsize, hlook, h.endsWithSlash_eq]

theorem discard_other (h : t.Seats p dir n) {e : Entry} (hlook : t.lookup (dir ++ [n]) = some e)
    (he : e ≠ .directory) : t.discard p = t.erase (dir ++ [n]) := by
  unfold discard
  rw [h.removeFile_eq hlook he]
  split
  · rename_i hx
    have hdir := lookup_of_node?_directory (h.linkStatus_eq_ok.mp hx)
    rw [hlook] at hdir
    exact absurd (Option.some.inj hdir) he
  · rfl
  · rename_i hx
    rw [linkStatus, resolve, h.place_found hlook (.inl rfl)] at hx
    cases e <;> simp [node?, hlook] at hx

/-- A directory goes with all that is below it, where the way to it does not lead through it. -/
theorem discard_directory (h : t.Seats p dir n) (h' : (t.eraseBelow (dir ++ [n])).Seats p dir n)
    (hlook : t.lookup (dir ++ [n]) = some .directory) :
    t.discard p = (t.eraseBelow (dir ++ [n])).erase (dir ++ [n]) := by
  have hkept : (t.eraseBelow (dir ++ [n])).lookup (dir ++ [n]) = some .directory := by
    rw [lookup_eraseBelow, if_neg (by simp [Location.below]), hlook]
  have hsize : ¬n.utf8ByteSize > maxName := Nat.not_lt.mpr h.size_le
  have hremove : (t.eraseBelow (dir ++ [n])).removeDirectory p =
      .ok ((t.eraseBelow (dir ++ [n])).erase (dir ++ [n])) := by
    rw [removeDirectory, h'.holder_eq, h.lastStep_eq]
    simp [hsize, hkept, hasBelow_eraseBelow]
  unfold discard
  rw [h.linkStatus_eq_ok.mpr (node?_of_directory hlook)]
  simp [removeTree, resolve, h.place_found hlook (.inl rfl), hlook, hremove]

/-! ## Renaming -/

theorem rename_eq {qdir : Location} {m : String} (hp : t.Seats p dir n) (hq : t.Seats q qdir m) :
    t.rename p q =
      if (t.lookup (dir ++ [n])).isNone then .error .noEntry
      else t.moveEntry (dir ++ [n]) (qdir ++ [m]) false := by
  have hn : ¬n.utf8ByteSize > maxName := Nat.not_lt.mpr hp.size_le
  have hm : ¬m.utf8ByteSize > maxName := Nat.not_lt.mpr hq.size_le
  rw [rename, hp.holder_eq, hq.holder_eq, hp.lastStep_eq, hq.lastStep_eq, hp.endsWithSlash_eq,
    hq.endsWithSlash_eq]
  simp only [if_neg hn, if_neg hm, Bool.or_false]

/-- A renaming that succeeds takes the entry over with all that is below it, and puts no directory
in the place of something else. -/
theorem rename_ok {qdir : Location} {m : String} (hp : t.Seats p dir n) (hq : t.Seats q qdir m)
    (hne : dir ++ [n] ≠ qdir ++ [m]) (h : t.rename p q = .ok t') :
    t' = t.relocate (dir ++ [n]) (qdir ++ [m]) ∧
      ∀ e, t.lookup (qdir ++ [m]) = some e → e ≠ .directory →
        t.lookup (dir ++ [n]) ≠ some .directory := by
  rw [hp.rename_eq hq] at h
  split at h
  · simp at h
  · exact ⟨((moveEntry_cases h).2.resolve_left fun hsame => hne hsame.1).2,
      fun e => ne_directory_of_moveEntry hne h⟩

/-! ## Making directories -/

theorem makeDirectory_vacant (h : t.Seats p dir n) (hlook : t.lookup (dir ++ [n]) = none) :
    t.makeDirectory p = .ok (t.insert (dir ++ [n]) .directory) := by
  have hsize : ¬n.utf8ByteSize > maxName := Nat.not_lt.mpr h.size_le
  rw [makeDirectory, h.holder_eq, h.lastStep_eq]
  simp [hsize, hlook]

end Seats

/-- The path below a path that leads to a directory leads to the entry below that directory, if
it leads anywhere and no link stands there. -/
theorem resolve_descend {s rel x : Location} {m : String} {e : Entry}
    (hsource : t.resolve .reach p = .ok s) (hdir : t.lookup s = some .directory)
    (hname : ∀ k ∈ rel ++ [m], IsName k)
    (hdirs : ∀ r, r <+: rel → r ≠ [] → t.lookup (s ++ r) = some .directory)
    (hlook : t.lookup (s ++ rel ++ [m]) = some e) (hlink : ∀ target, e ≠ .link target)
    (h : t.resolve .reach (p.descend (rel ++ [m])) = .ok x) : x = s ++ rel ++ [m] := by
  obtain ⟨hrefusal, k, hleads⟩ := leads_of_resolve hsource hdir
  obtain ⟨hsteps, habs⟩ :=
    Path.steps_descend (Path.refusal?_eq_none.mp hrefusal).2.1 (by simp) hname
  obtain ⟨hne, hdot, hdots, -⟩ := hname m (List.mem_append_right _ (List.mem_singleton_self m))
  have hproper : ∀ i ∈ rel, i ≠ "" ∧ i ≠ "." ∧ i ≠ ".." := by
    intro i hi
    obtain ⟨hne, hdot, hdots, -⟩ := hname i (List.mem_append_left _ hi)
    exact ⟨hne, hdot, hdots⟩
  have hplace := place_of_resolve h
  unfold place at hplace
  split at hplace
  · simp at hplace
  rw [hsteps, origin, habs, ← origin, hleads.walk_append (by simp) (by simp)] at hplace
  cases stride_of_walk (walk_down hproper hdirs hplace) with
  | idle hidle _ => exact (hidle.elim hne hdot).elim
  | up _ => exact absurd rfl hdots
  | vacant _ hnone _ => rw [hnone] at hlook; simp at hlook
  | last _ _ _ _ hx => exact Place.found.inj hx
  | down _ _ _ hwalk =>
    rw [walk_nil] at hwalk
    exact (Place.found.inj (Except.ok.inj hwalk)).symm
  | link _ hd _ _ _ =>
    rw [hd] at hlook
    exact absurd (Option.some.inj hlook).symm (hlink _)

/-- A file below a directory that a path leads to is opened by the path below that path. What
the ground `u` holds stands in `t` too. -/
theorem openRead_descend {u : Tree} (hk : u.Keeps t) {s rel : Location} {m : String}
    {handle : Handle} {id : Nat} (hsource : u.resolve .reach p = .ok s)
    (hdir : u.lookup s = some .directory) (hname : ∀ k ∈ rel ++ [m], IsName k)
    (hdirs : ∀ r, r <+: rel → r ≠ [] → u.lookup (s ++ r) = some .directory)
    (hfile : u.lookup (s ++ rel ++ [m]) = some (.file id))
    (h : t.openRead (p.descend (rel ++ [m])) = .ok handle) : handle = .file id := by
  have hlook := hk.lookup_eq hfile
  unfold openRead at h
  cases hres : t.resolve .reach (p.descend (rel ++ [m])) with
  | error e => simp [hres] at h
  | ok x =>
    have hx := resolve_descend (resolve_mono hsource hk) (hk.lookup_eq hdir) hname
      (fun r hr hne => hk.lookup_eq (hdirs r hr hne)) hlook (by simp) hres
    rw [hres, hx] at h
    simp only [hlook] at h
    exact (Except.ok.inj h).symm

/-- Where a path leads to something, its last name stands in the directory that holds it. -/
theorem holder_of_found {l : Location} (h : t.place .reach p = .ok (.found l)) :
    ∃ dir, t.holder p = .ok dir ∧
      ∀ n, lastStep p = .name n → n.utf8ByteSize ≤ maxName ∧ t.lookup (dir ++ [n]) ≠ none := by
  unfold place at h
  split at h
  · simp at h
  rename_i hrefusal
  rcases List.eq_nil_or_concat p.names with hnames | ⟨init, n, hnames⟩
  · refine ⟨origin t.home p, holder_eq_ok.mpr ⟨hrefusal, maxLinks, ?_⟩, ?_⟩
    · rw [hnames]
      exact .done
    · intro m hm
      simp [lastStep, hnames] at hm
  · rw [List.concat_eq_append] at hnames
    have hsteps : ∃ tail, p.steps = init ++ n :: tail := by
      unfold Path.steps
      rw [hnames]
      split
      · exact ⟨[""], by simp⟩
      · exact ⟨[], rfl⟩
    obtain ⟨tail, hsteps⟩ := hsteps
    rw [hsteps] at h
    obtain ⟨k, dir, hleads, hend⟩ := leads_of_walk (.inl (by simp)) _ _ _ h
    refine ⟨dir, holder_eq_ok.mpr ⟨hrefusal, k, by rwa [hnames, List.dropLast_concat]⟩, ?_⟩
    intro m hm
    obtain ⟨hlast, hne, hdot, hdots⟩ := names_of_lastStep hm
    rw [hnames, List.dropLast_concat] at hlast
    rw [List.singleton_inj.mp (List.append_cancel_left hlast)] at hend
    cases stride_of_walk hend with
    | idle hidle _ => exact (hidle.elim hne hdot).elim
    | up _ => exact absurd rfl hdots
    | vacant _ _ hx => simp at hx
    | last hstep hlook _ _ _ => exact ⟨hstep.2.2.2, by simp [hlook]⟩
    | down hstep hlook _ _ => exact ⟨hstep.2.2.2, by simp [hlook]⟩
    | link hstep hlook _ _ _ => exact ⟨hstep.2.2.2, by simp [hlook]⟩

theorem place_of_status {x : Node} (h : t.status p = .ok x) :
    ∃ l, t.place .reach p = .ok (.found l) ∧ t.node? l = some x := by
  unfold status resolve at h
  cases hplace : t.place .reach p with
  | error e => simp [hplace] at h
  | ok y =>
    cases y with
    | vacant l => simp [hplace] at h
    | found l =>
      rw [hplace] at h
      cases hnode : t.node? l with
      | none => simp [hnode] at h
      | some z =>
        simp only [hnode, Except.ok.injEq] at h
        exact ⟨l, rfl, by rw [hnode, h]⟩

theorem resolve_of_status {x : Node} (h : t.status p = .ok x) :
    ∃ l, t.resolve .reach p = .ok l ∧ t.node? l = some x := by
  obtain ⟨l, hplace, hnode⟩ := place_of_status h
  exact ⟨l, by rw [resolve, hplace], hnode⟩

/-- No directory is made where one is already. -/
theorem makeDirectory_of_status (h : t.status p = .ok .directory) :
    t.makeDirectory p = .error .alreadyExists := by
  obtain ⟨l, hplace, -⟩ := place_of_status h
  obtain ⟨dir, hholder, hlast⟩ := holder_of_found hplace
  unfold makeDirectory
  rw [hholder]
  simp only
  split
  · rename_i n hn
    obtain ⟨hsize, hlook⟩ := hlast n hn
    rw [if_neg (Nat.not_lt.mpr hsize)]
    cases hentry : t.lookup (dir ++ [n]) with
    | none => exact absurd hentry hlook
    | some e => rfl
  · rfl

/-- Nothing has to be made on the way to an existing directory. -/
theorem makeChain_of_status {k : Nat} (h : p.text = "" ∨ t.status p = .ok .directory) :
    t.makeChain (k + 1) p = (.ok (), t) := by
  unfold makeChain
  split
  · rfl
  · rename_i htext
    have hstatus := h.resolve_left htext
    have hne : FileError.alreadyExists ≠ .noEntry := by decide
    simp [makeDirectory_of_status hstatus, hne, isDirectory, hstatus]

/-- The directory around `p` exists, or is the working directory. -/
def HasParents (t : Tree) (p : Path) : Prop :=
  ∀ q, p.parent? = some q → q.text = "" ∨ t.status q = .ok .directory

theorem HasParents.mono {u : Tree} (h : u.HasParents p) (hk : u.Keeps t) : t.HasParents p := by
  refine fun q hq => (h q hq).imp_right fun hstatus => ?_
  obtain ⟨l, hl, hnode⟩ := resolve_of_status hstatus
  have hlook := hk.lookup_eq (lookup_of_node?_directory hnode)
  rw [status, resolve_mono hl hk]
  simp [node?_of_directory hlook]

theorem HasParents.makeParents_eq (h : t.HasParents p) : t.makeParents p = (.ok (), t) := by
  unfold makeParents
  split
  · rfl
  · rename_i q hq
    exact makeChain_of_status (h q hq)

theorem hasParents_of_checkHolder (h : Item.checkHolder t p = .ok ()) : t.HasParents p := by
  intro q hq
  unfold Item.checkHolder at h
  rw [hq] at h
  simp only at h
  split at h
  · rename_i htext
    exact .inl htext
  · split at h
    · simp at h
    · rename_i hstatus
      exact .inr hstatus
    · simp at h

/-- A destination that passes its check is no directory, but stands in one. -/
theorem hasParents_of_checkDestination {i : Item} (hdest : i.destination = some p)
    (h : i.checkDestination t = .ok ()) : t.isDirectory p = false ∧ t.HasParents p := by
  unfold Item.checkDestination at h
  rw [hdest] at h
  simp only at h
  split at h
  · simp at h
  · split at h
    · simp at h
    · rename_i hnot
      exact ⟨by simpa using hnot, hasParents_of_checkHolder h⟩

/-- Where a path ends in a name at which nothing stands, in an existing directory, that
directory alone is made, or nothing is. -/
theorem makeDirectories_cases {init : List String} (hp : p.EndsIn init n)
    (hparents : t.HasParents p) (hfree : ∀ x, t.linkStatus p ≠ .ok x) :
    (∃ dir, t.Seats p dir n ∧ t.makeDirectories p = (.ok (), t.insert (dir ++ [n]) .directory)) ∨
      ∃ e, t.makeDirectories p = (.error e, t) := by
  have hnot : t.isDirectory p = false := by
    unfold isDirectory
    split
    · rename_i hstatus
      obtain ⟨l, hplace, hnode⟩ := place_of_status hstatus
      obtain ⟨dir, hseat⟩ := seats_of_place hp hplace
      rw [hseat.place_vacant (hseat.lookup_eq_none hfree)] at hplace
      simp at hplace
    · rfl
  unfold makeDirectories makeChain
  rw [if_neg hp.text_ne]
  cases hmake : t.makeDirectory p with
  | ok t' =>
    obtain ⟨dir, hseat⟩ := seats_of_makeDirectory hp hmake
    have hvacant := hseat.makeDirectory_vacant (hseat.lookup_eq_none hfree)
    rw [hmake] at hvacant
    exact .inl ⟨dir, hseat, by rw [Except.ok.inj hvacant]⟩
  | error e =>
    have hlength : ∃ k, p.text.length = k + 1 := by
      refine Nat.exists_eq_succ_of_ne_zero fun hzero => hp.text_ne ?_
      rwa [String.length_eq_zero_iff] at hzero
    obtain ⟨k, hk⟩ := hlength
    right
    simp only [hnot, hk]
    split
    · split
      · exact ⟨_, rfl⟩
      · rename_i q hq
        simp [makeChain_of_status (hparents q hq), hmake, hnot]
    · simp

end Haulage.Disk.Tree
