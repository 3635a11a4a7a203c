import Haulage.Proofs.Paths

/-!
# Ways through the tree

A walk that is to act on an entry first has to reach the directory that holds
the entry. `Tree.Leads` says that steps lead from one directory to another,
whatever is to be done there, and how many links may still be replaced after
it. A path whose way leads to a directory and that ends in a name seats an entry
there, `Tree.Seats`; every operation on such a path is known by what stands at
that entry alone.

A way stays as it is while nothing is taken from the tree: see `Seats.mono`.
-/

namespace Haulage.Disk.Tree

variable {t t' : Tree}

/-! ## Walks and ways -/

/-- How a walk that may replace so many links goes on at a link. -/
def detour (t : Tree) (aim : Aim) : Nat → Detour
  | 0 => fun _ _ _ => .error .tooManyLinks
  | k + 1 => fun here target rest => t.walk aim k (origin here target) (target.steps ++ rest)

theorem walk_eq (t : Tree) (aim : Aim) (k : Nat) :
    t.walk aim k = t.advance aim (t.detour aim k) := by
  cases k <;> rfl

@[simp] theorem walk_nil (t : Tree) (aim : Aim) (k : Nat) (here : Location) :
    t.walk aim k here [] = .ok (.found here) := by
  rw [walk_eq, advance_nil]

/-- A step of this name leads to an entry of the directory in which it is taken. -/
def Enters (step : String) : Prop :=
  step ≠ "" ∧ step ≠ "." ∧ step ≠ ".." ∧ step.utf8ByteSize ≤ maxName

section FirstStep

variable {aim : Aim} {k : Nat} {here : Location} {step : String} {rest : List String}

theorem walk_idle (h : step = "" ∨ step = ".") :
    t.walk aim k here (step :: rest) = t.walk aim k here rest := by
  rw [walk_eq, advance_cons, if_pos (by simpa using h)]

theorem walk_up : t.walk aim k here (".." :: rest) = t.walk aim k here.dropLast rest := by
  rw [walk_eq, advance_cons, if_neg (by decide), if_pos rfl]

theorem walk_vacant (hstep : Enters step) (hlook : t.lookup (here ++ [step]) = none) :
    t.walk aim k here [step] = .ok (.vacant (here ++ [step])) := by
  obtain ⟨hne, hdot, hdots, hsize⟩ := hstep
  simp [walk_eq, advance_cons, hne, hdot, hdots, hlook, Nat.not_lt.mpr hsize]

theorem walk_found (hstep : Enters step) {e : Entry} (hlook : t.lookup (here ++ [step]) = some e)
    (hlink : aim = .entry ∨ ∀ target, e ≠ .link target) :
    t.walk aim k here [step] = .ok (.found (here ++ [step])) := by
  obtain ⟨hne, hdot, hdots, hsize⟩ := hstep
  cases e with
  | directory => simp [walk_eq, advance_cons, hne, hdot, hdots, hlook, Nat.not_lt.mpr hsize]
  | file id => simp [walk_eq, advance_cons, hne, hdot, hdots, hlook, Nat.not_lt.mpr hsize]
  | link target =>
    have haim : aim = .entry := hlink.resolve_right fun h => h target rfl
    simp [walk_eq, advance_cons, hne, hdot, hdots, hlook, Nat.not_lt.mpr hsize, haim]

theorem walk_directory (hstep : Enters step)
    (hlook : t.lookup (here ++ [step]) = some .directory) (hslash : aim = .create → rest ≠ [""]) :
    t.walk aim k here (step :: rest) = t.walk aim k (here ++ [step]) rest := by
  obtain ⟨hne, hdot, hdots, hsize⟩ := hstep
  have hcreate : ¬(aim = .create ∧ rest = [""]) := fun h => hslash h.1 h.2
  simp [walk_eq, advance_cons, hne, hdot, hdots, hlook, Nat.not_lt.mpr hsize, hcreate]

theorem walk_link (hstep : Enters step) {target : Path}
    (hlook : t.lookup (here ++ [step]) = some (.link target))
    (hgo : rest ≠ [] ∨ aim ≠ .entry) (hslash : aim = .create → rest ≠ [""]) :
    t.walk aim (k + 1) here (step :: rest) =
      t.walk aim k (origin here target) (target.steps ++ rest) := by
  obtain ⟨hne, hdot, hdots, hsize⟩ := hstep
  have hcreate : ¬(aim = .create ∧ rest = [""]) := fun h => hslash h.1 h.2
  have hover : ¬(rest = [] ∧ aim = .entry) := fun h => hgo.elim (· h.1) (· h.2)
  have hdetour : t.detour aim (k + 1) here target rest =
      t.walk aim k (origin here target) (target.steps ++ rest) := rfl
  rw [← hdetour, walk_eq, advance_cons]
  simp [hne, hdot, hdots, hlook, Nat.not_lt.mpr hsize, hcreate, hover]

/-- How the first step of a walk that arrives is taken. -/
inductive Stride (t : Tree) (aim : Aim) (x : Place) :
    Nat → Location → String → List String → Prop
  | idle {k : Nat} {here : Location} {step : String} {rest : List String}
      (hidle : step = "" ∨ step = ".") (h : t.walk aim k here rest = .ok x) :
      Stride t aim x k here step rest
  | up {k : Nat} {here : Location} {rest : List String}
      (h : t.walk aim k here.dropLast rest = .ok x) : Stride t aim x k here ".." rest
  | vacant {k : Nat} {here : Location} {step : String} (hstep : Enters step)
      (hlook : t.lookup (here ++ [step]) = none) (hx : x = .vacant (here ++ [step])) :
      Stride t aim x k here step []
  | last {k : Nat} {here : Location} {step : String} {e : Entry} (hstep : Enters step)
      (hlook : t.lookup (here ++ [step]) = some e) (he : e ≠ .directory)
      (hlink : aim = .entry ∨ ∀ target, e ≠ .link target) (hx : x = .found (here ++ [step])) :
      Stride t aim x k here step []
  | down {k : Nat} {here : Location} {step : String} {rest : List String} (hstep : Enters step)
      (hlook : t.lookup (here ++ [step]) = some .directory)
      (hslash : aim = .create → rest ≠ [""])
      (h : t.walk aim k (here ++ [step]) rest = .ok x) : Stride t aim x k here step rest
  | link {k : Nat} {here : Location} {step : String} {rest : List String} {target : Path}
      (hstep : Enters step) (hlook : t.lookup (here ++ [step]) = some (.link target))
      (hgo : rest ≠ [] ∨ aim ≠ .entry) (hslash : aim = .create → rest ≠ [""])
      (h : t.walk aim k (origin here target) (target.steps ++ rest) = .ok x) :
      Stride t aim x (k + 1) here step rest

theorem stride_of_walk {x : Place} (h : t.walk aim k here (step :: rest) = .ok x) :
    t.Stride aim x k here step rest := by
  rw [walk_eq, advance_cons, ← walk_eq] at h
  by_cases hidle : step = "" ∨ step = "."
  · rw [if_pos (by simpa using hidle)] at h
    exact .idle hidle h
  rw [if_neg (by simpa using hidle)] at h
  by_cases hdots : step = ".."
  · subst hdots
    rw [if_pos rfl] at h
    exact .up h
  rw [if_neg hdots] at h
  split at h
  · simp at h
  rename_i hcreate
  have hslash : aim = .create → rest ≠ [""] := by
    intro haim hrest
    simp [haim, hrest] at hcreate
  split at h
  · simp at h
  rename_i hsize
  have hstep : Enters step :=
    ⟨fun h => hidle (.inl h), fun h => hidle (.inr h), hdots, Nat.le_of_not_lt hsize⟩
  split at h
  · rename_i hlook
    split at h
    · rename_i hrest
      rw [List.isEmpty_iff.mp hrest]
      exact .vacant hstep hlook (Except.ok.inj h).symm
    · simp at h
  · rename_i hlook
    exact .down hstep hlook hslash h
  · rename_i id hlook
    split at h
    · rename_i hrest
      rw [List.isEmpty_iff.mp hrest]
      exact .last hstep hlook (by simp) (.inr (by simp)) (Except.ok.inj h).symm
    · simp at h
  · rename_i target hlook
    split at h
    · rename_i hrest
      rw [Bool.and_eq_true, List.isEmpty_iff, decide_eq_true_eq] at hrest
      rw [hrest.1]
      exact .last hstep hlook (by simp) (.inl hrest.2) (Except.ok.inj h).symm
    · rename_i hover
      have hgo : rest ≠ [] ∨ aim ≠ .entry := by
        by_cases hrest : rest = []
        · exact .inr fun haim => hover (by simp [hrest, haim])
        · exact .inl hrest
      cases k with
      | zero => simp [detour] at h
      | succ k => exact .link hstep hlook hgo hslash h

end FirstStep

/-! ## Ways -/

/-- The steps lead from the directory `here` to the directory `l`. A walk that may replace `k`
links on the way may replace `k'` afterwards. -/
inductive Leads (t : Tree) : Nat → Location → List String → Nat → Location → Prop
  | done {k : Nat} {l : Location} : Leads t k l [] k l
  | idle {k k' : Nat} {here l : Location} {step : String} {rest : List String}
      (hidle : step = "" ∨ step = ".") (h : Leads t k here rest k' l) :
      Leads t k here (step :: rest) k' l
  | up {k k' : Nat} {here l : Location} {rest : List String}
      (h : Leads t k here.dropLast rest k' l) : Leads t k here (".." :: rest) k' l
  | down {k k' : Nat} {here l : Location} {step : String} {rest : List String}
      (hstep : Enters step) (hlook : t.lookup (here ++ [step]) = some .directory)
      (h : Leads t k (here ++ [step]) rest k' l) : Leads t k here (step :: rest) k' l
  | link {k k' : Nat} {here l : Location} {step : String} {rest : List String} {target : Path}
      (hstep : Enters step) (hlook : t.lookup (here ++ [step]) = some (.link target))
      (h : Leads t k (origin here target) (target.steps ++ rest) k' l) :
      Leads t (k + 1) here (step :: rest) k' l

/-- A walk goes where its steps lead, and goes on from there. -/
theorem Leads.walk_append {k k' : Nat} {here l : Location} {steps tail : List String} {aim : Aim}
    (h : t.Leads k here steps k' l) (htail : tail ≠ [])
    (hslash : aim = .create → tail.getLast? ≠ some "") :
    t.walk aim k here (steps ++ tail) = t.walk aim k' l tail := by
  have hmore : ∀ rest : List String, rest ++ tail ≠ [] := by
    intro rest
    simp [htail]
  have hcreate : aim = .create → ∀ rest : List String, rest ++ tail ≠ [""] := by
    intro haim rest heq
    have hlast := congrArg List.getLast? heq
    rw [List.getLast?_append_of_ne_nil _ htail] at hlast
    exact hslash haim hlast
  induction h with
  | done => rfl
  | idle hidle _ ih => rw [List.cons_append, walk_idle hidle, ih]
  | up _ ih => rw [List.cons_append, walk_up, ih]
  | down hstep hlook _ ih =>
    rw [List.cons_append, walk_directory hstep hlook fun haim => hcreate haim _, ih]
  | link hstep hlook _ ih =>
    rw [List.cons_append, walk_link hstep hlook (.inl (hmore _)) fun haim => hcreate haim _,
      ← List.append_assoc, ih]

theorem Leads.trans {k k' k'' : Nat} {here l m : Location} {steps tail : List String}
    (h : t.Leads k here steps k' l) (h' : t.Leads k' l tail k'' m) :
    t.Leads k here (steps ++ tail) k'' m := by
  induction h with
  | done => exact h'
  | idle hidle _ ih => exact .idle hidle (ih h')
  | up _ ih => exact .up (ih h')
  | down hstep hlook _ ih => exact .down hstep hlook (ih h')
  | link hstep hlook _ ih =>
    refine .link hstep hlook ?_
    have hmore := ih h'
    rwa [List.append_assoc] at hmore

/-- A walk that arrives came a way, as far as it has steps left or ends at a directory. -/
theorem leads_of_walk {aim : Aim} {tail : List String} {x : Place}
    (htail : tail ≠ [] ∨ ∃ l, x = .found l ∧ t.lookup l = some .directory) :
    ∀ (k : Nat) (here : Location) (steps : List String),
      t.walk aim k here (steps ++ tail) = .ok x →
      ∃ k' l, t.Leads k here steps k' l ∧ t.walk aim k' l tail = .ok x
  | k, here, [], h => ⟨k, here, .done, h⟩
  | k, here, step :: rest, h => by
    have hlast : rest ++ tail = [] → ∃ l, x = .found l ∧ t.lookup l = some .directory := by
      intro heq
      exact htail.resolve_left fun hne => hne (List.append_eq_nil_iff.mp heq).2
    rw [List.cons_append] at h
    generalize hmore : rest ++ tail = more at h hlast
    cases stride_of_walk h with
    | idle hidle hwalk =>
      obtain ⟨k', l, hleads, hend⟩ := leads_of_walk htail k here rest (hmore ▸ hwalk)
      exact ⟨k', l, .idle hidle hleads, hend⟩
    | up hwalk =>
      obtain ⟨k', l, hleads, hend⟩ := leads_of_walk htail k here.dropLast rest (hmore ▸ hwalk)
      exact ⟨k', l, .up hleads, hend⟩
    | vacant _ _ hx =>
      obtain ⟨l, hl, -⟩ := hlast rfl
      simp [hx] at hl
    | last _ hlook he _ hx =>
      obtain ⟨l, hl, hdir⟩ := hlast rfl
      rw [hx] at hl
      rw [← Place.found.inj hl, hlook] at hdir
      exact absurd (Option.some.inj hdir) he
    | down hstep hlook _ hwalk =>
      obtain ⟨k', l, hleads, hend⟩ :=
        leads_of_walk htail k (here ++ [step]) rest (hmore ▸ hwalk)
      exact ⟨k', l, .down hstep hlook hleads, hend⟩
    | @link k _ _ _ target hstep hlook _ _ hwalk =>
      obtain ⟨k', l, hleads, hend⟩ := leads_of_walk htail k (origin here target)
        (target.steps ++ rest) (by rw [List.append_assoc, hmore, hwalk])
      exact ⟨k', l, .link hstep hlook hleads, hend⟩
termination_by k _ steps => (k, steps.length)

/-- Names of directories lead down. -/
theorem leads_down {k : Nat} {here rel : Location} (hrel : ∀ n ∈ rel, Enters n)
    (hdirs : ∀ r, r <+: rel → r ≠ [] → t.lookup (here ++ r) = some .directory) :
    t.Leads k here rel k (here ++ rel) := by
  induction rel generalizing here with
  | nil =>
    rw [List.append_nil]
    exact .done
  | cons n rel ih =>
    have hdown : t.Leads k (here ++ [n]) rel k (here ++ [n] ++ rel) := by
      refine ih (fun m hm => hrel m (List.mem_cons_of_mem _ hm)) fun r hr _ => ?_
      rw [List.append_assoc]
      exact hdirs (n :: r) (List.cons_prefix_cons.mpr ⟨rfl, hr⟩) (by simp)
    rw [List.append_assoc] at hdown
    exact .down (hrel n List.mem_cons_self)
      (hdirs [n] (List.cons_prefix_cons.mpr ⟨rfl, List.nil_prefix⟩) (by simp)) hdown

/-- A walk along names of directories goes down, if it arrives. -/
theorem walk_down {aim : Aim} {k : Nat} {here rel : Location} {m : String} {x : Place}
    (hrel : ∀ n ∈ rel, n ≠ "" ∧ n ≠ "." ∧ n ≠ "..")
    (hdirs : ∀ r, r <+: rel → r ≠ [] → t.lookup (here ++ r) = some .directory)
    (h : t.walk aim k here (rel ++ [m]) = .ok x) : t.walk aim k (here ++ rel) [m] = .ok x := by
  induction rel generalizing here with
  | nil => rwa [List.append_nil]
  | cons n rel ih =>
    obtain ⟨hne, hdot, hdots⟩ := hrel n List.mem_cons_self
    have hdir := hdirs [n] (List.cons_prefix_cons.mpr ⟨rfl, List.nil_prefix⟩) (by simp)
    rw [List.cons_append] at h
    generalize hmore : rel ++ [m] = more at h
    cases stride_of_walk h with
    | idle hidle _ => exact (hidle.elim hne hdot).elim
    | up _ => exact absurd rfl hdots
    | vacant _ _ _ => simp at hmore
    | last _ _ _ _ _ => simp at hmore
    | link _ hlook _ _ _ => rw [hdir] at hlook; simp at hlook
    | down _ _ _ hwalk =>
      have hgo := @ih (here ++ [n]) (fun i hi => hrel i (List.mem_cons_of_mem _ hi))
        (fun r hr _ => by
          rw [List.append_assoc]
          exact hdirs (n :: r) (List.cons_prefix_cons.mpr ⟨rfl, hr⟩) (by simp))
        (hmore ▸ hwalk)
      rwa [List.append_assoc] at hgo

/-! ## Growing trees -/

/-- The tree `t` is at home where `u` is, and holds what `u` holds. -/
structure Keeps (u t : Tree) : Prop where
  home_eq : t.home = u.home
  lookup_eq {l : Location} {e : Entry} (h : u.lookup l = some e) : t.lookup l = some e

/-- A way stays a way while the directories and links of the tree stay. -/
theorem Leads.mono {k k' : Nat} {here l : Location} {steps : List String}
    (h : t.Leads k here steps k' l)
    (hways : ∀ m e, t.lookup m = some e → (∀ id, e ≠ .file id) → t'.lookup m = some e) :
    t'.Leads k here steps k' l := by
  induction h with
  | done => exact .done
  | idle hidle _ ih => exact .idle hidle ih
  | up _ ih => exact .up ih
  | down hstep hlook _ ih => exact .down hstep (hways _ _ hlook (by simp)) ih
  | link hstep hlook _ ih => exact .link hstep (hways _ _ hlook (by simp)) ih

/-- A walk that finds an entry finds it while nothing is taken from the tree. -/
theorem walk_found_mono {aim : Aim} {l : Location} (hk : t.Keeps t') :
    ∀ (k : Nat) (here : Location) (steps : List String),
      t.walk aim k here steps = .ok (.found l) → t'.walk aim k here steps = .ok (.found l)
  | k, here, [], h => by rwa [walk_nil] at h ⊢
  | k, here, step :: rest, h => by
    cases stride_of_walk h with
    | idle hidle hwalk =>
      rw [walk_idle hidle]
      exact walk_found_mono hk k here rest hwalk
    | up hwalk =>
      rw [walk_up]
      exact walk_found_mono hk k here.dropLast rest hwalk
    | vacant _ _ hx => simp at hx
    | last hstep hlook _ hlink hx => rw [walk_found hstep (hk.lookup_eq hlook) hlink, hx]
    | down hstep hlook hslash hwalk =>
      rw [walk_directory hstep (hk.lookup_eq hlook) hslash]
      exact walk_found_mono hk k (here ++ [step]) rest hwalk
    | @link k _ _ _ target hstep hlook hgo hslash hwalk =>
      rw [walk_link hstep (hk.lookup_eq hlook) hgo hslash]
      exact walk_found_mono hk k (origin here target) (target.steps ++ rest) hwalk
termination_by k _ steps => (k, steps.length)

theorem place_of_resolve {aim : Aim} {p : Path} {l : Location} (h : t.resolve aim p = .ok l) :
    t.place aim p = .ok (.found l) := by
  unfold resolve at h
  split at h
  · rename_i hplace; rw [hplace, Except.ok.inj h]
  · simp at h
  · simp at h

/-- What a path leads to stays where it is while nothing is taken from the tree. -/
theorem resolve_mono {aim : Aim} {p : Path} {l : Location} (h : t.resolve aim p = .ok l)
    (hk : t.Keeps t') : t'.resolve aim p = .ok l := by
  have hplace := place_of_resolve h
  have hplace' : t'.place aim p = .ok (.found l) := by
    unfold place at hplace ⊢
    split at hplace
    · simp at hplace
    · rename_i hrefusal
      rw [hk.home_eq]
      exact walk_found_mono hk _ _ _ hplace
  rw [resolve, hplace']

/-! ## Seats -/

theorem holder_eq_ok {p : Path} {dir : Location} :
    t.holder p = .ok dir ↔ p.refusal? = none ∧
      ∃ k, t.Leads maxLinks (origin t.home p) p.names.dropLast k dir := by
  unfold holder
  constructor
  · intro h
    split at h
    · simp at h
    rename_i hrefusal
    split at h
    · rename_i l hwalk
      obtain ⟨k, l', hleads, hend⟩ := leads_of_walk (.inl (by simp)) _ _ _ hwalk
      rw [walk_idle (.inl rfl), walk_nil] at hend
      rw [← Except.ok.inj h, ← Place.found.inj (Except.ok.inj hend)]
      exact ⟨hrefusal, k, hleads⟩
    · simp at h
    · simp at h
  · rintro ⟨hrefusal, k, hleads⟩
    rw [hrefusal]
    simp only
    rw [hleads.walk_append (by simp) (by simp), walk_idle (.inl rfl), walk_nil]

/-- The path `p` names the entry `n` of the directory `dir`, whether or not there is one. -/
structure Seats (t : Tree) (p : Path) (dir : Location) (n : String) : Prop where
  holder_eq : t.holder p = .ok dir
  lastStep_eq : lastStep p = .name n
  size_le : n.utf8ByteSize ≤ maxName
  endsWithSlash_eq : p.endsWithSlash = false

theorem names_of_lastStep {p : Path} {n : String} (h : lastStep p = .name n) :
    p.names = p.names.dropLast ++ [n] ∧ n ≠ "" ∧ n ≠ "." ∧ n ≠ ".." := by
  unfold lastStep at h
  split at h
  · simp at h
  · simp at h
  · simp at h
  · rename_i m hdot hdots hlast
    have hm := LastStep.name.inj h
    subst hm
    have hmem : m ∈ p.names := List.mem_of_getLast? hlast
    refine ⟨?_, ?_, fun h => hdot (h ▸ rfl), fun h => hdots (h ▸ rfl)⟩
    · obtain ⟨init, hinit⟩ := List.getLast?_eq_some_iff.mp hlast
      rw [hinit, List.dropLast_concat]
    · simpa using (List.mem_filter.mp hmem).2

namespace Seats

variable {p q : Path} {dir : Location} {n : String}

theorem enters (h : t.Seats p dir n) : Enters n := by
  obtain ⟨-, hne, hdot, hdots⟩ := names_of_lastStep h.lastStep_eq
  exact ⟨hne, hdot, hdots, h.size_le⟩

/-- A path seats the same entry while the directories and links of the tree stay. -/
theorem transfer (h : t.Seats p dir n) (hhome : t'.home = t.home)
    (hways : ∀ m e, t.lookup m = some e → (∀ id, e ≠ .file id) → t'.lookup m = some e) :
    t'.Seats p dir n := by
  obtain ⟨hrefusal, k, hleads⟩ := holder_eq_ok.mp h.holder_eq
  refine ⟨holder_eq_ok.mpr ⟨hrefusal, k, ?_⟩, h.lastStep_eq, h.size_le, h.endsWithSlash_eq⟩
  rw [hhome]
  exact hleads.mono hways

theorem mono (h : t.Seats p dir n) (hk : t.Keeps t') : t'.Seats p dir n :=
  h.transfer hk.home_eq fun _ _ hlook _ => hk.lookup_eq hlook

/-- Every walk along the path comes to the directory, with the name left. -/
theorem place_eq (h : t.Seats p dir n) :
    ∃ k, ∀ aim, t.place aim p = t.walk aim k dir [n] := by
  obtain ⟨hrefusal, k, hleads⟩ := holder_eq_ok.mp h.holder_eq
  obtain ⟨hnames, hne, -⟩ := names_of_lastStep h.lastStep_eq
  have hsteps : p.steps = p.names.dropLast ++ [n] := by
    rw [Path.steps, h.endsWithSlash_eq, if_neg (by simp), ← hnames]
  refine ⟨k, fun aim => ?_⟩
  rw [place, hrefusal, hsteps]
  exact hleads.walk_append (by simp) (by simp [hne])

theorem place_vacant (h : t.Seats p dir n) (hlook : t.lookup (dir ++ [n]) = none) (aim : Aim) :
    t.place aim p = .ok (.vacant (dir ++ [n])) := by
  obtain ⟨k, hk⟩ := h.place_eq
  rw [hk, walk_vacant h.enters hlook]

theorem place_found (h : t.Seats p dir n) {e : Entry} (hlook : t.lookup (dir ++ [n]) = some e)
    {aim : Aim} (hlink : aim = .entry ∨ ∀ target, e ≠ .link target) :
    t.place aim p = .ok (.found (dir ++ [n])) := by
  obtain ⟨k, hk⟩ := h.place_eq
  rw [hk, walk_found h.enters hlook hlink]

end Seats

/-- A path that ends in a name seats an entry if a walk along it arrives at all. -/
theorem seats_of_place {p : Path} {init : List String} {n : String} (hp : p.EndsIn init n)
    {aim : Aim} {x : Place} (h : t.place aim p = .ok x) : ∃ dir, t.Seats p dir n := by
  unfold place at h
  split at h
  · simp at h
  rename_i hrefusal
  rw [hp.steps_eq] at h
  obtain ⟨k, dir, hleads, hend⟩ := leads_of_walk (.inl (by simp)) _ _ _ h
  refine ⟨dir, holder_eq_ok.mpr ⟨hrefusal, k, ?_⟩, hp.lastStep_eq, ?_, hp.endsWithSlash_eq⟩
  · rw [hp.names_eq, List.dropLast_concat]
    exact hleads
  · cases stride_of_walk hend with
    | idle hidle _ => exact absurd hidle (by simp [hp.isName.1, hp.isName.2.1])
    | up _ => exact absurd rfl hp.isName.2.2.1
    | vacant hstep _ _ => exact hstep.2.2.2
    | last hstep _ _ _ _ => exact hstep.2.2.2
    | down hstep _ _ _ => exact hstep.2.2.2
    | link hstep _ _ _ _ => exact hstep.2.2.2

/-- It does so if a directory can be made there. -/
theorem seats_of_makeDirectory {p : Path} {init : List String} {n : String}
    (hp : p.EndsIn init n) (h : t.makeDirectory p = .ok t') : ∃ dir, t.Seats p dir n := by
  unfold makeDirectory at h
  split at h
  · simp at h
  rename_i dir hholder
  rw [hp.lastStep_eq] at h
  simp only at h
  split at h
  · simp at h
  rename_i hsize
  exact ⟨dir, hholder, hp.lastStep_eq, Nat.le_of_not_lt hsize, hp.endsWithSlash_eq⟩

/-- The way to a directory that a path leads to. -/
theorem leads_of_resolve {p : Path} {l : Location} (h : t.resolve .reach p = .ok l)
    (hdir : t.lookup l = some .directory) :
    p.refusal? = none ∧ ∃ k, t.Leads maxLinks (origin t.home p) p.names k l := by
  have hplace := place_of_resolve h
  unfold place at hplace
  split at hplace
  · simp at hplace
  rename_i hrefusal
  refine ⟨hrefusal, ?_⟩
  unfold Path.steps at hplace
  split at hplace
  · obtain ⟨k, l', hleads, hend⟩ := leads_of_walk (.inl (by simp)) _ _ _ hplace
    rw [walk_idle (.inl rfl), walk_nil] at hend
    rw [← Place.found.inj (Except.ok.inj hend)]
    exact ⟨k, hleads⟩
  · rw [← List.append_nil p.names] at hplace
    obtain ⟨k, l', hleads, hend⟩ := leads_of_walk (.inr ⟨l, rfl, hdir⟩) _ _ _ hplace
    rw [walk_nil] at hend
    rw [← Place.found.inj (Except.ok.inj hend)]
    exact ⟨k, hleads⟩

/-- A path that goes on from another one starts where that one does, and has its names first. -/
theorem origin_eq_of_endsIn {p q : Path} {w more : List String} {y m : String}
    (hp : p.EndsIn w y) (hq : q.EndsIn (w ++ y :: more) m) (home : Location) :
    origin home q = origin home p ∧
      q.names.dropLast = p.names.dropLast ++ y :: more.filter (· ≠ "") := by
  constructor
  · unfold origin
    rw [hq.isAbsolute_eq, hp.isAbsolute_eq]
    cases w <;> simp [hp.isName.1]
  · rw [hq.names_eq, hp.names_eq, List.dropLast_concat, List.dropLast_concat, List.filter_append,
      List.filter_cons_of_pos (by simpa using hp.isName.1)]

/-- What is named below a path is reached over that path. -/
theorem origin_descend {p : Path} {init : List String} {rel : Location} {n m : String}
    (hp : p.EndsIn init n) (hrel : ∀ k ∈ rel, IsName k) (hm : IsName m) (home : Location) :
    origin home (p.descend (rel ++ [m])) = origin home p ∧
      (p.descend (rel ++ [m])).names.dropLast = p.names.dropLast ++ n :: rel := by
  have hq := hp.descend hrel hm
  rw [List.append_assoc, List.singleton_append] at hq
  have hfilter : rel.filter (· ≠ "") = rel :=
    List.filter_eq_self.mpr fun k hk => by simp [(hrel k hk).1]
  have hway := origin_eq_of_endsIn hp hq home
  rwa [hfilter] at hway

/-- A path below a seat at which a directory stands seats what lies below that directory. -/
theorem Seats.below {p : Path} {dir rel : Location} {init : List String} {n m : String}
    (h : t.Seats p dir n) (hp : p.EndsIn init n)
    (hdirs : ∀ r, r <+: rel → t.lookup (dir ++ [n] ++ r) = some .directory)
    (hrel : ∀ k ∈ rel, IsName k ∧ k.utf8ByteSize ≤ maxName) (hm : IsName m)
    (hsize : m.utf8ByteSize ≤ maxName) (hrefusal : (p.descend (rel ++ [m])).refusal? = none) :
    t.Seats (p.descend (rel ++ [m])) (dir ++ [n] ++ rel) m := by
  have hq := hp.descend (fun k hk => (hrel k hk).1) hm
  obtain ⟨-, k, hleads⟩ := holder_eq_ok.mp h.holder_eq
  have henters : ∀ i ∈ n :: rel, Enters i := by
    intro i hi
    rcases List.mem_cons.mp hi with rfl | hi
    · exact h.enters
    · obtain ⟨hname, hle⟩ := hrel i hi
      exact ⟨hname.1, hname.2.1, hname.2.2.1, hle⟩
  have hdown : t.Leads k dir (n :: rel) k (dir ++ n :: rel) := by
    refine leads_down henters fun r hr hne => ?_
    cases r with
    | nil => exact absurd rfl hne
    | cons i r =>
      obtain ⟨hi, hrest⟩ := List.cons_prefix_cons.mp hr
      have hdir := hdirs r hrest
      rwa [List.append_assoc, List.singleton_append, ← hi] at hdir
  obtain ⟨horigin, hnames⟩ := origin_descend hp (fun k hk => (hrel k hk).1) hm t.home
  refine ⟨holder_eq_ok.mpr ⟨hrefusal, k, ?_⟩, hq.lastStep_eq, hsize, hq.endsWithSlash_eq⟩
  rw [horigin, hnames, List.append_assoc]
  exact hleads.trans hdown

end Haulage.Disk.Tree
