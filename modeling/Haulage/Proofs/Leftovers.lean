import Haulage.Proofs.Alterations

/-!
# Working over leftovers

An earlier attempt may have left something where the staged copy of a new one is
to stand, and the new one then works on top of it. As long as no link stands
there, and no file that stands elsewhere too, `Tree.Plain`, the paths below the
staged copy lead straight down, and what is done along them stays there:
`Tree.Worked` says so of each operation, in the terms in which they compose.
-/

namespace Haulage.Disk

namespace Tree

variable {P Q : Location → Prop} {t t' t'' : Tree} {p : Path} {init : List String} {n m : String}
  {dir l x rel : Location}

/-! ## Straight ways -/

/-- A way leads on from the directory to which its first steps lead. -/
theorem Leads.walk_rest {k k' k'' : Nat} {here : Location} {steps rest : List String}
    (h : t.Leads k here (steps ++ rest) k' l) (hfirst : t.Leads k here steps k'' x) :
    t.walk .reach k'' x (rest ++ [""]) = .ok (.found l) := by
  rw [← hfirst.walk_append (by simp) (by simp), ← List.append_assoc,
    h.walk_append (by simp) (by simp), walk_idle (.inl rfl), walk_nil]

/-- Names at which no link stands lead straight down. -/
theorem Leads.straight {k k' : Nat} {here : Location} {steps : List String}
    (h : t.Leads k here steps k' l) (hname : ∀ s ∈ steps, IsName s)
    (hlink : ∀ r, here <+: r → ∀ target, t.lookup r ≠ some (.link target)) :
    l = here ++ steps := by
  induction h with
  | done => rw [List.append_nil]
  | @idle _ _ _ _ step rest hidle _ _ =>
    have hstep := hname step List.mem_cons_self
    exact (hidle.elim hstep.1 hstep.2.1).elim
  | up _ _ => exact absurd rfl (hname ".." List.mem_cons_self).2.2.1
  | down _ _ _ ih =>
    rw [ih (fun s hs => hname s (List.mem_cons_of_mem _ hs))
      fun r hr => hlink r ((List.prefix_append _ _).trans hr), List.append_assoc,
      List.singleton_append]
  | link _ hlook _ _ => exact absurd hlook (hlink _ (List.prefix_append _ _) _)

/-- No link stands at `l` or below, and each file there stands nowhere else. -/
structure Plain (t : Tree) (l : Location) : Prop where
  noLink {r : Location} (h : l <+: r) (target : Path) : t.lookup r ≠ some (.link target)
  sole {r r' : Location} {id : Nat} (h : l <+: r) (hr : t.lookup r = some (.file id))
    (hr' : t.lookup r' = some (.file id)) : r' = r

theorem Plain.of_bare (h : t.Bare l) : t.Plain l where
  noLink hr target := by simp [h _ hr]
  sole hr hfile _ := by simp [h _ hr] at hfile

/-- A path below a seat is seated below it, if at all, where no links are in the way. -/
theorem Seats.seat_below (h : t.Seats p dir n) (hp : p.EndsIn init n)
    (hplain : t.Plain (dir ++ [n])) (hname : ∀ k ∈ rel ++ [m], IsName k) {dir' : Location}
    (hs : t.Seats (p.descend (rel ++ [m])) dir' m) : dir' = dir ++ [n] ++ rel := by
  have hrel : ∀ k ∈ rel, IsName k := fun k hk => hname k (List.mem_append_left _ hk)
  have hm : IsName m := hname m (List.mem_append_right _ (List.mem_singleton_self m))
  obtain ⟨-, k, hleads⟩ := holder_eq_ok.mp h.holder_eq
  obtain ⟨-, k', hleads'⟩ := holder_eq_ok.mp hs.holder_eq
  obtain ⟨horigin, hnames⟩ := origin_descend hp hrel hm t.home
  rw [hnames, horigin] at hleads'
  -- both ways have the same steps up to the seat, so the rest is walked from there
  have hwalk := hleads'.walk_rest hleads
  obtain ⟨k'', l, hdown, hend⟩ := leads_of_walk (.inl (by simp)) _ _ _ hwalk
  rw [walk_idle (.inl rfl), walk_nil] at hend
  have hat : l = dir ++ n :: rel := by
    cases hdown with
    | idle hidle _ => exact (hidle.elim hp.isName.1 hp.isName.2.1).elim
    | up _ => exact absurd rfl hp.isName.2.2.1
    | down _ _ hrest =>
      rw [hrest.straight hrel fun r hr => hplain.noLink hr, List.append_assoc,
        List.singleton_append]
    | link _ hlook _ => exact absurd hlook (hplain.noLink (List.prefix_refl _) _)
  rw [← Place.found.inj (Except.ok.inj hend), hat, List.append_assoc, List.singleton_append]

/-- So what such a path seats is known from its names alone. -/
theorem Seats.seat_of_names (h : t.Seats p dir n) (hp : p.EndsIn init n)
    (hplain : t.Plain (dir ++ [n])) (hne : rel ≠ []) (hname : ∀ k ∈ rel, IsName k) :
    ∃ init' m, (p.descend rel).EndsIn init' m ∧
      ∀ dir', t.Seats (p.descend rel) dir' m → dir' ++ [m] = dir ++ [n] ++ rel := by
  obtain ⟨r, m, rfl⟩ := (List.eq_nil_or_concat rel).resolve_left hne
  rw [List.concat_eq_append] at hname ⊢
  have hq := hp.descend (fun i hi => hname i (List.mem_append_left _ hi))
    (hname m (List.mem_append_right _ (List.mem_singleton_self m)))
  refine ⟨_, m, hq, fun dir' hseat => ?_⟩
  rw [h.seat_below hp hplain hname hseat, List.append_assoc]

/-! ## What is done there -/

/-- The second tree has come out of the first by work at the locations `P`, by which nothing was
taken away, and what stands at `l` is still plain. -/
structure Worked (P : Location → Prop) (l : Location) (t t' : Tree) : Prop where
  alters : t.Alters P t'
  keeps : t.Keeps t'
  plain : t'.Plain l

theorem Keeps.refl (t : Tree) : t.Keeps t := ⟨rfl, fun h => h⟩

theorem Keeps.trans (h : t.Keeps t') (h' : t'.Keeps t'') : t.Keeps t'' :=
  ⟨h'.home_eq.trans h.home_eq, fun hlook => h'.lookup_eq (h.lookup_eq hlook)⟩

namespace Worked

theorem refl (h : t.Plain l) : Worked P l t t := ⟨.refl P t, .refl t, h⟩

theorem trans (h : Worked P l t t') (h' : Worked P l t' t'') : Worked P l t t'' :=
  ⟨h.alters.trans h'.alters, h.keeps.trans h'.keeps, h'.plain⟩

theorem mono (h : Worked P l t t') (hPQ : ∀ r, P r → Q r) : Worked Q l t t' :=
  ⟨h.alters.mono hPQ, h.keeps, h.plain⟩

end Worked

namespace Plain

theorem insert_directory (h : t.Plain l) (hx : x ≠ []) (hfree : t.lookup x = none) :
    Worked (· = x) l t (t.insert x .directory) := by
  have hlook := fun r => lookup_insert t .directory r hx
  have hold : ∀ {r id}, (t.insert x .directory).lookup r = some (.file id) →
      t.lookup r = some (.file id) := by
    intro r id hr
    rw [hlook] at hr
    split at hr
    · simp at hr
    · exact hr
  refine ⟨alters_insert_directory hx rfl, ⟨rfl, fun {r e} hr => ?_⟩, fun {r} hr target => ?_,
    fun hr hfile hfile' => h.sole hr (hold hfile) (hold hfile')⟩
  · rw [hlook, if_neg, hr]
    rintro rfl
    rw [hfree] at hr
    simp at hr
  · rw [hlook]
    split
    · simp
    · exact h.noLink hr target

theorem addFile (h : t.Plain l) (hnum : t.Numbered) (hx : x ≠ []) (hfree : t.lookup x = none) :
    Worked (· = x) l t (t.addFile x).2 := by
  have hlook := fun r => lookup_addFile t r hx
  refine ⟨alters_addFile hx rfl, ⟨rfl, fun {r e} hr => ?_⟩, fun {r} hr target => ?_,
    fun {r r' id} hr hfile hfile' => ?_⟩
  · rw [hlook, if_neg, hr]
    rintro rfl
    rw [hfree] at hr
    simp at hr
  · rw [hlook]
    split
    · simp
    · exact h.noLink hr target
  · -- the number of the new file is given to no other
    rw [hlook] at hfile hfile'
    by_cases hrx : r = x
    · rw [if_pos hrx, Option.some.injEq, Entry.file.injEq] at hfile
      by_cases hrx' : r' = x
      · rw [hrx', hrx]
      · rw [if_neg hrx'] at hfile'
        exact absurd (hnum _ _ hfile') (by omega)
    · rw [if_neg hrx] at hfile
      by_cases hrx' : r' = x
      · rw [if_pos hrx', Option.some.injEq, Entry.file.injEq] at hfile'
        exact absurd (hnum _ _ hfile) (by omega)
      · rw [if_neg hrx'] at hfile'
        exact h.sole hr hfile hfile'

theorem setData (h : t.Plain l) {id : Nat} (hx : l <+: x) (hfile : t.lookup x = some (.file id))
    (d : FileData) : Worked (· = x) l t (t.setData id d) :=
  ⟨alters_setData d fun _ hr => h.sole hx hfile hr, ⟨rfl, fun hlook => hlook⟩, h.noLink, h.sole⟩

theorem writeAt (h : t.Plain l) {id : Nat} (hx : l <+: x) (hfile : t.lookup x = some (.file id))
    (offset : Nat) (chunk : Bytes) : Worked (· = x) l t (t.writeAt id offset chunk) :=
  ⟨alters_writeAt chunk fun _ hr => h.sole hx hfile hr, ⟨rfl, fun hlook => hlook⟩, h.noLink,
    h.sole⟩

end Plain

theorem seats_of_isDirectory (hp : p.EndsIn init n) (h : t.isDirectory p = true) :
    ∃ dir, t.Seats p dir n := by
  unfold isDirectory at h
  split at h
  · rename_i hstatus
    obtain ⟨x, hplace, -⟩ := place_of_status hstatus
    exact seats_of_place hp hplace
  · simp at h

namespace Seats

/-- Where no link stands a file is created new, or the file that stands there is emptied. -/
theorem create_cases (h : t.Seats p dir n)
    (hlink : ∀ target, t.lookup (dir ++ [n]) ≠ some (.link target)) {id : Nat}
    (hcreate : t.create p = .ok (id, t')) :
    (t.lookup (dir ++ [n]) = none ∧ id = t.files.size ∧ t' = (t.addFile (dir ++ [n])).2) ∨
      (t.lookup (dir ++ [n]) = some (.file id) ∧ t' = t.setData id ⟨.empty, none⟩) := by
  cases hlook : t.lookup (dir ++ [n]) with
  | none =>
    rw [h.create_vacant hlook] at hcreate
    obtain ⟨rfl, rfl⟩ := Prod.mk.inj (Except.ok.inj hcreate)
    exact .inl ⟨rfl, rfl, rfl⟩
  | some e =>
    have he : ∀ target, e ≠ .link target := fun target heq => hlink target (heq ▸ hlook)
    rw [create, h.place_found hlook (.inr he)] at hcreate
    cases e with
    | link target => exact absurd rfl (he target)
    | directory => simp [hlook] at hcreate
    | file j =>
      simp only [hlook, Except.ok.injEq, Prod.mk.injEq] at hcreate
      obtain ⟨rfl, rfl⟩ := hcreate
      exact .inr ⟨rfl, rfl⟩

/-- A file that is created over whatever stands there is empty, if it is created at all. -/
theorem create_worked (h : t.Seats p dir n) (hplain : t.Plain l) (hl : l <+: dir ++ [n])
    (hnum : t.Numbered) {id : Nat} (hcreate : t.create p = .ok (id, t')) :
    Worked (· = dir ++ [n]) l t t' ∧ t'.lookup (dir ++ [n]) = some (.file id) ∧
      (t'.data id).bytes = .empty := by
  have hne : dir ++ [n] ≠ [] := by simp
  rcases h.create_cases (fun target => hplain.noLink hl target) hcreate with
    ⟨hlook, rfl, rfl⟩ | ⟨hlook, rfl⟩
  · refine ⟨hplain.addFile hnum hne hlook, ?_, ?_⟩
    · have hnew := lookup_addFile t (dir ++ [n]) hne
      rwa [if_pos rfl] at hnew
    · have hnew := data_addFile t (dir ++ [n]) t.files.size
      have hempty : t.data t.files.size = ⟨.empty, none⟩ := by
        rw [data, Array.getElem?_eq_none (Nat.le_refl _)]
        rfl
      rw [hempty] at hnew
      exact congrArg FileData.bytes hnew
  · refine ⟨hplain.setData hl hlook _, hlook, ?_⟩
    rw [data_setData, if_pos ⟨rfl, hnum _ _ hlook⟩]

/-- What is held there is the empty file then. -/
theorem create_holds (h : t.Seats p dir n) (hat : dir ++ [n] = l ++ rel) (hplain : t.Plain l)
    (hnum : t.Numbered) {f : Location → Option Node} (hholds : t.Holds l f) {id : Nat}
    (hcreate : t.create p = .ok (id, t')) :
    t'.Holds l (Function.update f rel (some (.file ⟨.empty, none⟩))) := by
  have hl : l <+: dir ++ [n] := hat ▸ List.prefix_append l rel
  have hcases := h.create_cases (fun target => hplain.noLink hl target) hcreate
  rw [hat] at hcases
  rcases hcases with ⟨-, -, rfl⟩ | ⟨hlook, rfl⟩
  · exact hholds.addFile hnum (by simp [← hat])
  · exact hholds.setData hnum hlook _

/-- Where no link stands a seat leads to a directory only if one stands there. -/
theorem lookup_of_isDirectory (h : t.Seats p dir n)
    (hlink : ∀ target, t.lookup (dir ++ [n]) ≠ some (.link target))
    (hdir : t.isDirectory p = true) : t.lookup (dir ++ [n]) = some .directory := by
  unfold isDirectory at hdir
  split at hdir
  · rename_i hstatus
    obtain ⟨r, hplace, hnode⟩ := place_of_status hstatus
    cases hlook : t.lookup (dir ++ [n]) with
    | none =>
      rw [h.place_vacant hlook] at hplace
      simp at hplace
    | some e =>
      have he : ∀ target, e ≠ .link target := fun target heq => hlink target (heq ▸ hlook)
      rw [h.place_found hlook (.inr he)] at hplace
      rw [Place.found.inj (Except.ok.inj hplace)] at hlook
      rw [← hlook, lookup_of_node?_directory hnode]
  · simp at hdir

end Seats

/-- A file whose time is set, if that can be done, keeps its bytes. -/
theorem orSame_setModified_worked (hp : p.EndsIn init n) (hplain : t.Plain l) (hl : l <+: x)
    {id : Nat} (hfile : t.lookup x = some (.file id))
    (hat : ∀ dir, t.Seats p dir n → dir ++ [n] = x) (s : Option Stamp) :
    Worked (· = x) l t (t.orSame (t.setModified p s)) ∧
      ∀ j, ((t.orSame (t.setModified p s)).data j).bytes = (t.data j).bytes := by
  cases hset : t.setModified p s with
  | error e => exact ⟨.refl hplain, fun _ => rfl⟩
  | ok t' =>
    obtain ⟨y, hy⟩ : ∃ y, t.resolve .reach p = .ok y := by
      cases hres : t.resolve .reach p with
      | error e => simp [setModified, hres] at hset
      | ok y => exact ⟨y, rfl⟩
    obtain ⟨dir, hs⟩ := seats_of_place hp (place_of_resolve hy)
    obtain rfl := hat dir hs
    rw [hs.setModified_file hfile] at hset
    obtain rfl := Except.ok.inj hset
    refine ⟨hplain.setData hl hfile _, fun j => ?_⟩
    simp only [orSame]
    rw [data_setData]
    split
    · rename_i hj
      rw [hj.1]
    · rfl

/-! ## Directories below a seat -/

/-- Directories were made at `l` or below, and nothing else was done. -/
structure Furnished (l : Location) (t t' : Tree) : Prop extends Worked (l <+: ·) l t t' where
  data_eq (id : Nat) : t'.data id = t.data id

theorem Furnished.refl (h : t.Plain l) : Furnished l t t := ⟨.refl h, fun _ => rfl⟩

theorem Furnished.trans (h : Furnished l t t') (h' : Furnished l t' t'') : Furnished l t t'' :=
  ⟨h.toWorked.trans h'.toWorked, fun id => (h'.data_eq id).trans (h.data_eq id)⟩

/-- The path that is gone up to from a path below `p`. -/
theorem parent?_below (hp : p.EndsIn init n) (hname : ∀ k ∈ rel ++ [m], IsName k) :
    (p.descend (rel ++ [m])).parent? = some (if rel = [] then p else p.descend rel) := by
  have hrel : ∀ k ∈ rel, IsName k := fun k hk => hname k (List.mem_append_left _ hk)
  have hq := hp.descend hrel (hname m (List.mem_append_right _ (List.mem_singleton_self m)))
  rcases List.eq_nil_or_concat rel with rfl | ⟨r, k, rfl⟩
  · rw [List.append_nil] at hq
    rw [hp.parent?_child hq, if_pos rfl]
  · rw [List.concat_eq_append] at hrel hq ⊢
    have hr := hp.descend (fun i hi => hrel i (List.mem_append_left _ hi))
      (hrel k (List.mem_append_right _ (List.mem_singleton_self k)))
    rw [← List.append_assoc (init ++ [n])] at hq
    rw [hr.parent?_child hq, if_neg (by simp)]

/-- What making the directory `x` below `l` leaves: directories there only, and if it succeeded that
directory. -/
structure Made (l x : Location) (t : Tree) (r : Except FileError Unit × Tree) : Prop where
  furnished : Furnished l t r.2
  lookup_eq (h : r.1 = .ok ()) : r.2.lookup x = some .directory

namespace Made

variable {r : Except FileError Unit × Tree}

theorem failed (h : Furnished l t t') (e : FileError) : Made l x t (.error e, t') :=
  ⟨h, fun hok => by simp at hok⟩

theorem after (h : Furnished l t t') (hr : Made l x t' r) : Made l x t r :=
  ⟨h.trans hr.furnished, hr.lookup_eq⟩

end Made

section Below

variable (h : t.Seats p dir n) (hp : p.EndsIn init n) (hplain : t.Plain (dir ++ [n]))
  (hname : ∀ k ∈ rel ++ [m], IsName k)
include h hp hplain hname

theorem makeDirectory_below (hmake : t.makeDirectory (p.descend (rel ++ [m])) = .ok t') :
    Made (dir ++ [n]) (dir ++ [n] ++ (rel ++ [m])) t (.ok (), t') := by
  have hq := hp.descend (fun k hk => hname k (List.mem_append_left _ hk))
    (hname m (List.mem_append_right _ (List.mem_singleton_self m)))
  obtain ⟨dir', hs⟩ := seats_of_makeDirectory hq hmake
  obtain ⟨dir'', k, hholder, hlast, -, hfree, rfl⟩ := makeDirectory_inv hmake
  rw [hs.holder_eq] at hholder
  rw [hs.lastStep_eq] at hlast
  obtain rfl := Except.ok.inj hholder
  obtain rfl := LastStep.name.inj hlast
  rw [h.seat_below hp hplain hname hs, List.append_assoc (dir ++ [n])] at hfree ⊢
  have hne : dir ++ [n] ++ (rel ++ [m]) ≠ [] := by simp
  refine ⟨⟨(hplain.insert_directory hne hfree).mono ?_, fun _ => rfl⟩, fun _ => ?_⟩
  · rintro r rfl
    exact List.prefix_append _ _
  · rw [lookup_insert t _ _ hne, if_pos rfl]

/-- The directory counts as made if it is found. -/
theorem isDirectory_below (e : FileError) :
    Made (dir ++ [n]) (dir ++ [n] ++ (rel ++ [m])) t
      (if t.isDirectory (p.descend (rel ++ [m])) then (.ok (), t) else (.error e, t)) := by
  split
  · rename_i hdir
    refine ⟨.refl hplain, fun _ => ?_⟩
    have hq := hp.descend (fun k hk => hname k (List.mem_append_left _ hk))
      (hname m (List.mem_append_right _ (List.mem_singleton_self m)))
    obtain ⟨dir', hs⟩ := seats_of_isDirectory hq hdir
    have hat := h.seat_below hp hplain hname hs
    rw [← List.append_assoc, ← hat]
    refine hs.lookup_of_isDirectory (fun target => hplain.noLink ?_ target) hdir
    rw [hat, List.append_assoc (dir ++ [n])]
    exact List.prefix_append _ _
  · exact .failed (.refl hplain) e

end Below

/-- Making a directory below a directory that a path names, with all that is missing on the way,
makes directories there only. -/
theorem makeChain_below (h : t.Seats p dir n) (hp : p.EndsIn init n)
    (hplain : t.Plain (dir ++ [n])) (hdir : t.lookup (dir ++ [n]) = some .directory) (k : Nat)
    (hrel : rel ≠ []) (hname : ∀ i ∈ rel, IsName i) :
    Made (dir ++ [n]) (dir ++ [n] ++ rel) t (t.makeChain k (p.descend rel)) := by
  induction k generalizing rel with
  | zero => exact .failed (.refl hplain) _
  | succ k ih =>
    obtain ⟨r, m, rfl⟩ := (List.eq_nil_or_concat rel).resolve_left hrel
    rw [List.concat_eq_append] at hname ⊢
    have hr : ∀ i ∈ r, IsName i := fun i hi => hname i (List.mem_append_left _ hi)
    have htext := (hp.descend hr
      (hname m (List.mem_append_right _ (List.mem_singleton_self m)))).text_ne
    unfold makeChain
    rw [if_neg htext]
    cases hmake : t.makeDirectory (p.descend (r ++ [m])) with
    | ok t' => exact makeDirectory_below h hp hplain hname hmake
    | error e =>
      simp only [parent?_below hp hname]
      by_cases he : e = .noEntry
      · -- the directory around it is made first, unless that is `p` itself
        have haround : Furnished (dir ++ [n]) t
            (t.makeChain k (if r = [] then p else p.descend r)).2 := by
          by_cases hnil : r = []
          · rw [if_pos hnil]
            cases k with
            | zero => exact .refl hplain
            | succ k =>
              rw [makeChain_of_status (.inr (h.status_of_directory hdir))]
              exact .refl hplain
          · rw [if_neg hnil]
            exact (ih hnil hr).furnished
        rw [if_pos he]
        generalize t.makeChain k (if r = [] then p else p.descend r) = made at haround
        obtain ⟨made, t₁⟩ := made
        cases made with
        | error e' => exact .failed haround e'
        | ok _ =>
          have h₁ := h.mono haround.keeps
          refine .after haround ?_
          simp only
          cases hmake₁ : t₁.makeDirectory (p.descend (r ++ [m])) with
          | ok t₂ => exact makeDirectory_below h₁ hp haround.plain hname hmake₁
          | error e' => exact isDirectory_below h₁ hp haround.plain hname _
      · rw [if_neg he]
        exact isDirectory_below h hp hplain hname e

theorem makeParents_below (h : t.Seats p dir n) (hp : p.EndsIn init n)
    (hplain : t.Plain (dir ++ [n])) (hdir : t.lookup (dir ++ [n]) = some .directory)
    (hname : ∀ k ∈ rel ++ [m], IsName k) :
    Furnished (dir ++ [n]) t (t.makeParents (p.descend (rel ++ [m]))).2 := by
  unfold makeParents
  rw [parent?_below hp hname]
  simp only [makeDirectories]
  by_cases hnil : rel = []
  · rw [if_pos hnil, makeChain_of_status (.inr (h.status_of_directory hdir))]
    exact .refl hplain
  · rw [if_neg hnil]
    exact (makeChain_below h hp hplain hdir _ hnil fun k hk =>
      hname k (List.mem_append_left _ hk)).furnished

end Tree

end Haulage.Disk
