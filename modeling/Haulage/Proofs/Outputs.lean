import Haulage.Proofs.Leftovers
import Haulage.Proofs.Publication

/-!
# Where the output of a transfer lies

A destination may be written in any way, also with separators or dots at its
end. Its staged copy is named after that text, so it stands beside the
destination or, when the text ends in a separator or a dot, in a directory of
that name, which is then made for it. `Tree.Output` are the locations of both.

`Pitched` says that a staged copy has its place among them: whatever is left of
an earlier attempt there, the tree has changed at the output only, and moving
the staged copy to the destination or removing it changes the output only.
-/

namespace Haulage.Disk

/-! ## Destinations as they are written -/

namespace Path

variable {p d : Path} {w idle init : List String} {y n : String}

/-- The path without the separators and dots at its end. -/
def trimmed (p : Path) : Path :=
  ofSegments (p.segments.reverse.dropWhile fun s => !proper s).reverse

theorem trimmed_split (h : p.segments = w ++ y :: idle) (hy : proper y = true)
    (hidle : ∀ s ∈ idle, Idle s) : p.trimmed = ofSegments (w ++ [y]) := by
  rw [trimmed, h, dropWhile_idle hy hidle, List.reverse_cons, List.reverse_reverse]

theorem EndsIn.trimmed_eq (h : p.EndsIn init n) : p.trimmed = p := by
  rw [trimmed_split h.segments_eq h.isName.proper (by simp), ← h.segments_eq,
    ofSegments_segments]

/-- What is gone up to from the path of a staged copy: the parent of the destination, or the
destination itself without what stands idle at its end, or a path that names nothing. -/
theorem staged_parent? (h : d.segments = init ++ [n]) :
    (staged d).parent? = d.parent? ∨
      (∃ w y idle, init = w ++ y :: idle ∧ proper y = true ∧ proper n = false ∧
        (∀ s ∈ idle, Idle s) ∧ (staged d).parent? = some d.trimmed ∧
        d.trimmed.segments = w ++ [y] ∧ d.trimmed.parent? = d.parent?) ∨
      ∃ p, (staged d).parent? = some p ∧ (∀ q, p.parent? = some q → q.text = "") ∧
        ∀ k, Tree.lastStep p ≠ .name k := by
  have hstaged := (endsIn_staged h).parent?_eq
  by_cases hn : proper n = true
  · exact .inl (hstaged.trans (parent?_eq_parentOf h hn (by simp)).symm)
  have hidle : Idle n := by simpa using hn
  rcases idle_or_split init with hall | ⟨w, y, idle, rfl, hy, hall⟩
  · obtain ⟨p, heq, hp⟩ := parentOf_idle hall
    exact .inr (.inr ⟨p, hstaged.trans heq, hp⟩)
  · have hall' : ∀ s ∈ idle ++ [n], Idle s := fun s hs =>
      (List.mem_append.mp hs).elim (hall s) fun hs => by rwa [List.mem_singleton.mp hs]
    have hd : d.segments = w ++ y :: (idle ++ [n]) := by rw [h]; simp
    have htrim := trimmed_split hd hy hall'
    have hseg : d.trimmed.segments = w ++ [y] := by
      rw [htrim, segments_ofSegments_of_subset (p := d) (by simp) (by simp [hd])]
    refine .inr (.inl ⟨w, y, idle, rfl, hy, hidle, hall, ?_, hseg, ?_⟩)
    · rw [hstaged, parentOf_split hy hall, htrim]
    · rw [parent?_eq_parentOf hseg hy (by simp), parent?_eq_parentOf hd hy hall']

end Path

namespace Tree

variable {u t t' : Tree} {p d : Path} {w idle init : List String} {y n m : String}
  {dir l : Location}

/-- A path whose last name leads to an entry of its own ends in that name. -/
theorem endsIn_of_lastStep (h : p.segments = w ++ [y]) (hlast : lastStep p = .name n)
    (hy : Path.proper y = true) : n = y ∧ p.EndsIn w y := by
  have hne : y ≠ "" ∧ y ≠ "." := by simpa [Path.proper] using hy
  have hgot : p.names.getLast? = some y := by simp [Path.names, h, hne.1]
  unfold lastStep at hlast
  rw [hgot] at hlast
  split at hlast
  · simp at hlast
  · simp at hlast
  · simp at hlast
  · rename_i k _ hdots hk
    obtain rfl := Option.some.inj hk
    obtain rfl := LastStep.name.inj hlast
    refine ⟨rfl, h, hne.1, hne.2, fun heq => hdots (by rw [heq]), ?_⟩
    exact Path.not_mem_of_mem_segments (p := p) (by simp [h])

theorem walk_of_idle {aim : Aim} {k : Nat} {here : Location} {ss : List String}
    (h : ∀ s ∈ ss, Path.Idle s) : t.walk aim k here ss = .ok (.found here) := by
  induction ss with
  | nil => exact walk_nil t aim k here
  | cons s ss ih =>
    rw [walk_idle (Path.idle_iff.mp (h s List.mem_cons_self))]
    exact ih fun x hx => h x (List.mem_cons_of_mem _ hx)

/-- What is named behind a directory and idle segments is seated in that directory. -/
theorem Seats.dir_eq {q : Path} {a : Location} (hs : t.Seats q dir m)
    (hq : q.EndsIn (w ++ y :: idle) m) (hidle : ∀ s ∈ idle, Path.Idle s) (hp : p.EndsIn w y)
    (hholder : t.holder p = .ok a) (hdir : t.lookup (a ++ [y]) = some .directory) :
    dir = a ++ [y] := by
  obtain ⟨-, k, hleads⟩ := holder_eq_ok.mp hholder
  obtain ⟨-, k', hleads'⟩ := holder_eq_ok.mp hs.holder_eq
  obtain ⟨horigin, hnames⟩ := origin_eq_of_endsIn hp hq t.home
  rw [horigin, hnames] at hleads'
  have hslash := hleads'.walk_rest hleads
  rw [List.cons_append] at hslash
  have hrest : ∀ s ∈ idle.filter (· ≠ "") ++ [""], Path.Idle s := by
    intro s hs
    rcases List.mem_append.mp hs with hs | hs
    · exact hidle s (List.mem_of_mem_filter hs)
    · rw [List.mem_singleton.mp hs]
      decide
  generalize hmore : idle.filter (· ≠ "") ++ [""] = more at hslash hrest
  cases stride_of_walk hslash with
  | idle hno _ => exact (hno.elim hp.isName.1 hp.isName.2.1).elim
  | up _ => exact absurd rfl hp.isName.2.2.1
  | vacant _ _ _ => simp at hmore
  | last _ _ _ _ _ => simp at hmore
  | down _ _ _ hwalk =>
    rw [walk_of_idle hrest] at hwalk
    exact (Place.found.inj (Except.ok.inj hwalk)).symm
  | link _ hlook _ _ _ =>
    rw [hdir] at hlook
    simp at hlook

/-! ## Directories that are made on the way -/

/-- What making the directory `p` leaves: nothing new, or that directory. -/
inductive Raised (t : Tree) (p : Path) : Except FileError Unit × Tree → Prop
  | failed (e : FileError) : Raised t p (.error e, t)
  | there (h : p.text = "" ∨ t.isDirectory p = true) : Raised t p (.ok (), t)
  | made {dir : Location} {n : String} (hholder : t.holder p = .ok dir)
      (hlast : lastStep p = .name n) (hsize : n.utf8ByteSize ≤ maxName)
      (hfree : t.lookup (dir ++ [n]) = none) :
      Raised t p (.ok (), t.insert (dir ++ [n]) .directory)

theorem raised_of_makeDirectory (h : t.makeDirectory p = .ok t') : Raised t p (.ok (), t') := by
  obtain ⟨dir, n, hholder, hlast, hsize, hfree, rfl⟩ := makeDirectory_inv h
  exact .made hholder hlast hsize hfree

theorem raised_of_isDirectory (e : FileError) :
    Raised t p (if t.isDirectory p then (.ok (), t) else (.error e, t)) := by
  split
  · rename_i hdir
    exact .there (.inr hdir)
  · exact .failed e

/-- A directory that was made, or was there, is seated where its path ends in a name. -/
theorem Raised.seats (hr : Raised t p (.ok (), t')) (hp : p.EndsIn init n) :
    ∃ dir, t.Seats p dir n ∧ (t.isDirectory p = true ∧ t' = t ∨
      t.lookup (dir ++ [n]) = none ∧ t' = t.insert (dir ++ [n]) .directory) := by
  cases hr with
  | there hthere =>
    have hdir := hthere.resolve_left hp.text_ne
    obtain ⟨dir, hs⟩ := seats_of_isDirectory hp hdir
    exact ⟨dir, hs, .inl ⟨hdir, rfl⟩⟩
  | @made dir k hholder hlast hsize hfree =>
    obtain rfl := LastStep.name.inj (hp.lastStep_eq.symm.trans hlast)
    exact ⟨dir, ⟨hholder, hlast, hsize, hp.endsWithSlash_eq⟩, .inr ⟨hfree, rfl⟩⟩

/-- Where no link stands the directory is there then, and no other was made. -/
theorem Raised.holds (hr : Raised t p (.ok (), t')) (hp : p.EndsIn init n) :
    ∃ dir, t.Seats p dir n ∧ ∀ {l rel : Location} {f : Location → Option Node},
      dir ++ [n] = l ++ rel → t.Plain l → t.Holds l f →
        Worked (l <+: ·) l t t' ∧ t'.Holds l (Function.update f rel (some .directory)) := by
  obtain ⟨dir, hs, hcases⟩ := hr.seats hp
  refine ⟨dir, hs, fun {l rel f} hat hplain hholds => ?_⟩
  have hl : l <+: dir ++ [n] := hat ▸ List.prefix_append l rel
  have hne : dir ++ [n] ≠ [] := by simp
  rcases hcases with ⟨hdir, rfl⟩ | ⟨hfree, rfl⟩
  · have hlook := hs.lookup_of_isDirectory (fun target => hplain.noLink hl target) hdir
    have hf : f rel = some .directory := by
      rw [← hholds.node?_eq, ← hat, node?_of_directory hlook]
    rw [← hf, Function.update_eq_self]
    exact ⟨.refl hplain, hholds⟩
  · refine ⟨(hplain.insert_directory hne hfree).mono fun r hr => hr ▸ hl, ?_⟩
    rw [hat] at hne ⊢
    exact hholds.insert hne

/-- Where its parent has to be made first, a directory is made in the tree with that parent. -/
theorem makeChain_raised_over {q : Path} (hparent : p.parent? = some q) (k : Nat)
    (hq : Raised t q (t.makeChain k q)) :
    Raised t p (t.makeChain (k + 1) p) ∨ ∃ a y, t.holder q = .ok a ∧ lastStep q = .name y ∧
      t.lookup (a ++ [y]) = none ∧
      Raised (t.insert (a ++ [y]) .directory) p (t.makeChain (k + 1) p) := by
  unfold makeChain
  split
  · rename_i htext
    exact .inl (.there (.inl htext))
  cases hmake : t.makeDirectory p with
  | ok t' => exact .inl (raised_of_makeDirectory hmake)
  | error e =>
    simp only [hparent]
    by_cases he : e = .noEntry
    · rw [if_pos he]
      generalize t.makeChain k q = made at hq
      cases hq with
      | failed e' => exact .inl (.failed e')
      | there _ =>
        simp only [hmake]
        exact .inl (raised_of_isDirectory e)
      | @made a y hholder hlast _ hfree =>
        refine .inr ⟨a, y, hholder, hlast, hfree, ?_⟩
        simp only
        cases hmake' : (t.insert (a ++ [y]) .directory).makeDirectory p with
        | ok t' => exact raised_of_makeDirectory hmake'
        | error e' => exact raised_of_isDirectory e'
    · rw [if_neg he]
      exact .inl (raised_of_isDirectory e)

/-- In an existing directory, a directory is made alone. -/
theorem HasParents.makeChain_raised (h : t.HasParents p) (k : Nat) :
    Raised t p (t.makeChain k p) := by
  cases k with
  | zero => exact .failed _
  | succ k =>
    cases hparent : p.parent? with
    | none =>
      unfold makeChain
      split
      · rename_i htext
        exact .there (.inl htext)
      cases hmake : t.makeDirectory p with
      | ok t' => exact raised_of_makeDirectory hmake
      | error e =>
        simp only [hparent]
        split
        · exact .failed _
        · exact raised_of_isDirectory e
    | some q =>
      -- the parent is there, so making it changes nothing
      have hthere : t.makeChain k q = (.error .noEntry, t) ∨ t.makeChain k q = (.ok (), t) := by
        cases k with
        | zero => exact .inl rfl
        | succ k => exact .inr (makeChain_of_status (h q hparent))
      unfold makeChain
      split
      · rename_i htext
        exact .there (.inl htext)
      cases hmake : t.makeDirectory p with
      | ok t' => exact raised_of_makeDirectory hmake
      | error e =>
        simp only [hparent]
        split
        · rcases hthere with hno | hyes
          · rw [hno]
            exact .failed _
          · simp only [hyes, hmake]
            exact raised_of_isDirectory e
        · exact raised_of_isDirectory e

/-! ## Outputs -/

/-- The location belongs to the output of a transfer to `d`: to its staged copy, or to the
destination. -/
def Output (u : Tree) (d : Path) (l : Location) : Prop :=
  u.Within (staged d) l ∨ u.Within d.trimmed l

/-- The output of a transfer to a path that ends in a name is two entries, side by side. -/
theorem Seats.output_iff (h : u.Seats (staged d) dir (n ++ ".mlc.partial")) (hd : d.EndsIn init n) :
    u.Output d l ↔ stageAt dir n <+: l ∨ dir ++ [n] <+: l := by
  rw [Output, h.within_iff, hd.trimmed_eq, (h.destination hd).within_iff, stageAt]

/-- What stands at the entry that `p` names is plain. -/
def PlainAt (u : Tree) (p : Path) : Prop := ∀ dir n, u.Seats p dir n → u.Plain (dir ++ [n])

/-- The tree `t` is `u` with, perhaps, the directory made in which the staged copy of `d` is to
stand. -/
structure Prepared (u : Tree) (d : Path) (m : String) (t : Tree) : Prop where
  keeps : u.Keeps t
  alters : u.Alters (u.Output d) t
  numbered : t.Numbered
  covers {dir l : Location} (h : t.Seats (staged d) dir m) (hl : dir ++ [m] <+: l) : u.Output d l
  plain {dir : Location} (h : t.Seats (staged d) dir m) : t.Plain (dir ++ [m])
  settles {dir : Location} {init : List String} {n : String} (h : t.Seats (staged d) dir m)
    (hd : d.EndsIn init n) : u.Seats d dir n

theorem prepared_refl (hu : u.Sound) (hplain : u.PlainAt (staged d)) : Prepared u d m u where
  keeps := .refl u
  alters := .refl _ u
  numbered := hu.numbered
  covers h hl := .inl (h.within_iff.mpr hl)
  plain h := hplain _ _ h
  settles {dir init n} h hd := by
    have hm : n ++ ".mlc.partial" = m :=
      LastStep.name.inj (hd.staged.lastStep_eq.symm.trans h.lastStep_eq)
    subst hm
    exact h.destination hd

/-- The directory that is made for a staged copy whose destination ends idly is the destination. -/
theorem prepared_insert (hu : u.Sound) {a : Location} (hseg : d.segments = w ++ y :: idle ++ [n])
    (hn : Path.proper n = false) (hidle : ∀ s ∈ idle, Path.Idle s)
    (htrim : d.trimmed.EndsIn w y) (hholder : u.holder d.trimmed = .ok a)
    (hfree : u.lookup (a ++ [y]) = none) :
    Prepared u d (n ++ ".mlc.partial") (u.insert (a ++ [y]) .directory) := by
  have hne : a ++ [y] ≠ [] := by simp
  have hlook := fun r => lookup_insert u .directory r hne
  have hkeeps : u.Keeps (u.insert (a ++ [y]) .directory) := by
    refine ⟨rfl, fun {r e} hr => ?_⟩
    rw [hlook, if_neg, hr]
    rintro rfl
    rw [hfree] at hr
    simp at hr
  have halters : u.Alters (u.Output d) (u.insert (a ++ [y]) .directory) :=
    alters_insert_directory hne (.inr ⟨a, y, hholder, htrim.lastStep_eq, List.prefix_refl _⟩)
  have hdir : ∀ {dir}, (u.insert (a ++ [y]) .directory).Seats (staged d) dir
      (n ++ ".mlc.partial") → dir = a ++ [y] := fun hs =>
    hs.dir_eq (Path.endsIn_staged hseg) hidle htrim (holder_mono hholder hkeeps)
      (by rw [hlook, if_pos rfl])
  refine ⟨hkeeps, halters, halters.numbered hu.numbered, fun {dir l} hs hl => ?_,
    fun {dir} hs => .of_bare fun r hr => ?_, fun {dir init k} _ hd => ?_⟩
  · rw [hdir hs] at hl
    exact .inr ⟨a, y, hholder, htrim.lastStep_eq, (List.prefix_append _ _).trans hl⟩
  · -- below the new directory nothing stands
    rw [hdir hs] at hr
    have hpre : a ++ [y] <+: r := (List.prefix_append _ _).trans hr
    rw [hlook, if_neg, hu.bare hfree r hpre]
    rintro rfl
    have hle := hr.length_le
    simp at hle
  · have hk := hd.segments_eq
    rw [hseg] at hk
    have hlast := List.singleton_inj.mp (List.append_inj_right' hk rfl)
    rw [hlast, hd.isName.proper] at hn
    simp at hn

/-- The directory of the staged copy is made in a tree that was prepared for it. -/
theorem makeDirectories_staged (hu : u.Sound) (hplain : u.PlainAt (staged d))
    (hparents : u.HasParents d) (hseg : d.segments = init ++ [n]) :
    ∃ t, Prepared u d (n ++ ".mlc.partial") t ∧
      Raised t (staged d) (u.makeDirectories (staged d)) := by
  unfold makeDirectories
  rcases Path.staged_parent? hseg with hsame |
      ⟨w, y, idle, rfl, hy, hn, hidle, hparent, htrim, hup⟩ | ⟨p, hparent, hup, hnone⟩
  · refine ⟨u, prepared_refl hu hplain, HasParents.makeChain_raised ?_ _⟩
    intro q hq
    exact hparents q (hsame ▸ hq)
  · have hraised : u.HasParents d.trimmed := fun q hq => hparents q (hup ▸ hq)
    rcases makeChain_raised_over hparent _ (hraised.makeChain_raised _) with hdone |
        ⟨a, y', hholder, hlast, hfree, hdone⟩
    · exact ⟨u, prepared_refl hu hplain, hdone⟩
    · obtain ⟨rfl, hend⟩ := endsIn_of_lastStep htrim hlast hy
      exact ⟨_, prepared_insert hu hseg hn hidle hend hholder hfree, hdone⟩
  · have hraised : u.HasParents p := fun q hq => .inl (hup q hq)
    rcases makeChain_raised_over hparent _ (hraised.makeChain_raised _) with hdone |
        ⟨a, y, -, hlast, -, -⟩
    · exact ⟨u, prepared_refl hu hplain, hdone⟩
    · exact absurd hlast (hnone y)

/-! ## Staged copies over leftovers -/

/-- The staged copy of `d` has its place at the entry `m` of the directory `dir`. The tree `t` has
come out of `u` by work there, and what stands there is plain. -/
structure Pitched (u : Tree) (d : Path) (m : String) (dir : Location) (t : Tree) : Prop where
  keeps : u.Keeps t
  alters : u.Alters (u.Output d) t
  numbered : t.Numbered
  seats : t.Seats (staged d) dir m
  covers {l : Location} (hl : dir ++ [m] <+: l) : u.Output d l
  plain : t.Plain (dir ++ [m])
  settles {init : List String} {n : String} (hd : d.EndsIn init n) : u.Seats d dir n

theorem Prepared.pitched (h : Prepared u d m t) (hs : t.Seats (staged d) dir m) :
    Pitched u d m dir t :=
  ⟨h.keeps, h.alters, h.numbered, hs, h.covers hs, h.plain hs, h.settles hs⟩

theorem Pitched.worked (h : Pitched u d m dir t)
    (hw : Worked (dir ++ [m] <+: ·) (dir ++ [m]) t t') : Pitched u d m dir t' where
  keeps := h.keeps.trans hw.keeps
  alters := h.alters.trans (hw.alters.mono fun _ => h.covers)
  numbered := hw.alters.numbered h.numbered
  seats := h.seats.mono hw.keeps
  covers := h.covers
  plain := hw.plain
  settles := h.settles

/-- The directory of the staged copy was made, or found. -/
theorem Prepared.raised (h : Prepared u d m t) (hend : (staged d).EndsIn init m)
    (hr : Raised t (staged d) (.ok (), t')) :
    ∃ dir, Pitched u d m dir t' ∧ t'.lookup (dir ++ [m]) = some .directory := by
  obtain ⟨dir, hs, hcases⟩ := hr.seats hend
  refine ⟨dir, ?_⟩
  rcases hcases with ⟨hdir, rfl⟩ | ⟨hfree, rfl⟩
  · exact ⟨h.pitched hs,
      hs.lookup_of_isDirectory (fun target => (h.plain hs).noLink (List.prefix_refl _) target) hdir⟩
  · have hne : dir ++ [m] ≠ [] := by simp
    have hmade := (h.plain hs).insert_directory hne hfree
    refine ⟨(h.pitched hs).worked (hmade.mono fun r hr => ?_), ?_⟩
    · exact hr ▸ List.prefix_refl _
    · rw [lookup_insert t _ _ hne, if_pos rfl]

/-- The file of the staged copy was created, or emptied. -/
theorem Prepared.create (h : Prepared u d m t) (hend : (staged d).EndsIn init m) {id : Nat}
    (hc : t.create (staged d) = .ok (id, t')) :
    ∃ dir, Pitched u d m dir t' ∧ t'.lookup (dir ++ [m]) = some (.file id) ∧
      (t'.data id).bytes = .empty := by
  obtain ⟨dir, hs⟩ := seats_of_create hend hc
  obtain ⟨hw, hlook, hempty⟩ :=
    hs.create_worked (h.plain hs) (List.prefix_refl _) h.numbered hc
  exact ⟨dir, (h.pitched hs).worked (hw.mono fun r hr => hr ▸ List.prefix_refl _), hlook, hempty⟩

/-- Whatever stands at the place of the staged copy may be discarded. -/
theorem Prepared.alters_discard (h : Prepared u d m t) (hend : (staged d).EndsIn init m) :
    u.Alters (u.Output d) (t.discard (staged d)) :=
  h.alters.trans (Tree.alters_discard hend fun _ hs _ => h.covers hs)

theorem Pitched.alters_discard (h : Pitched u d m dir t) (hend : (staged d).EndsIn init m) :
    u.Alters (u.Output d) (t.discard (staged d)) := by
  refine h.alters.trans (Tree.alters_discard hend fun dir' hs l hl => h.covers ?_)
  rwa [Except.ok.inj (h.seats.holder_eq.symm.trans hs.holder_eq)]

/-- A staged copy is not moved to a destination whose text ends in a separator: it lies in that
destination, or the destination is a link. -/
theorem ne_empty_of_rename {x : String} (hr : t.rename (staged d) d = .ok t')
    (hseg : d.segments = init ++ [x]) : x ≠ "" := by
  rintro rfl
  have hend := Path.endsIn_staged hseg
  obtain ⟨dir, m, qd, qn, hpd, hqd, hpn, hqn, hmove⟩ := rename_inv hr
  obtain ⟨hnames, hne, hdot, hdots⟩ := names_of_lastStep hqn
  obtain rfl := LastStep.name.inj (hend.lastStep_eq.symm.trans hpn)
  have hdnames : d.names = init.filter (· ≠ "") := by simp [Path.names, hseg]
  have hslash : d.endsWithSlash = true := by
    unfold Path.endsWithSlash
    rw [hseg, hnames]
    simp
  obtain ⟨-, k, hleads⟩ := holder_eq_ok.mp hqd
  obtain ⟨-, k', hleads'⟩ := holder_eq_ok.mp hpd
  have horigin : origin t.home (staged d) = origin t.home d := by
    have habs : d.isAbsolute = (init.head? == some "") := by
      rw [Bool.eq_iff_iff, Path.isAbsolute_iff, hseg]
      cases init <;> simp
    rw [origin, origin, hend.isAbsolute_eq, habs]
  rw [horigin, hend.names_eq, List.dropLast_concat, ← hdnames, hnames] at hleads'
  have hwalk := hleads'.walk_rest hleads
  rw [List.singleton_append] at hwalk
  rw [hslash, Bool.or_true] at hmove
  obtain ⟨e, he, hdir, hout⟩ := moveEntry_inv hmove
  rw [List.dropLast_concat] at hout
  cases stride_of_walk hwalk with
  | idle hidle _ => exact hidle.elim hne hdot
  | up _ => exact hdots rfl
  | down _ _ _ hin =>
    rw [walk_idle (.inl rfl), walk_nil] at hin
    rw [← Place.found.inj (Except.ok.inj hin)] at hout
    exact hout (List.prefix_refl _)
  | link _ hlook _ _ _ =>
    rw [hdir rfl] at he
    by_cases hsame : dir ++ ["" ++ ".mlc.partial"] = qd ++ [qn]
    · rw [hsame, hlook] at he
      simp at he
    · exact ne_directory_of_moveEntry hsame hmove hlook (by simp) he

/-- A staged copy is moved only to a destination that ends in a name. -/
theorem endsIn_of_rename (hr : t.rename (staged d) d = .ok t') : ∃ init n, d.EndsIn init n := by
  obtain ⟨init, x, hseg⟩ := Path.exists_last_segment d
  have hempty := ne_empty_of_rename hr hseg
  obtain ⟨-, -, -, qn, -, -, -, hqn, -⟩ := rename_inv hr
  obtain ⟨hnames, hne, hdot, hdots⟩ := names_of_lastStep hqn
  have hx : '/' ∉ x.toList := Path.not_mem_of_mem_segments (p := d) (by simp [hseg])
  have hlast : d.names.getLast? = some x := by simp [Path.names, hseg, hempty]
  rw [hnames, List.getLast?_concat, Option.some.injEq] at hlast
  subst hlast
  exact ⟨init, qn, hseg, hne, hdot, hdots, hx⟩

/-- A staged copy that is moved comes to stand at the destination as it is. -/
theorem Pitched.rename (h : Pitched u d m dir t) (hr : t.rename (staged d) d = .ok t') :
    ∃ n, u.Seats d dir n ∧ u.Alters (u.Output d) t' ∧
      (∀ rel, t'.lookup (dir ++ [n] ++ rel) = t.lookup (dir ++ [m] ++ rel)) ∧
      ∀ id, t'.data id = t.data id := by
  obtain ⟨init, n, hd⟩ := endsIn_of_rename hr
  obtain rfl := LastStep.name.inj (hd.staged.lastStep_eq.symm.trans h.seats.lastStep_eq)
  have hseat := h.settles hd
  have hne : stageAt dir n ≠ dir ++ [n] := fun heq =>
    (stageAt_apart dir n).1 (heq ▸ List.prefix_refl _)
  obtain ⟨rfl, -⟩ := h.seats.rename_ok (hseat.mono h.keeps) hne hr
  have hnil : dir ++ [n ++ ".mlc.partial"] ≠ [] ∧ dir ++ [n] ≠ [] := ⟨by simp, by simp⟩
  refine ⟨n, hseat, h.alters.trans (alters_relocate hnil.1 hnil.2 (fun _ => h.covers)
    fun x hx => .inr ?_), fun rel => ?_, fun _ => rfl⟩
  · rw [hd.trimmed_eq]
    exact hseat.within_iff.mpr hx
  · rw [lookup_relocate t _ hnil.1 hnil.2, if_pos (by simp), List.drop_left]

end Tree

end Haulage.Disk
