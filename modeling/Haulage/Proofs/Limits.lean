import Haulage.Proofs.Access
import Haulage.Proofs.Sessions

/-!
# Transfers within the limits of paths

A path may be too long, and so may a name. The path of a staged copy is longer than that of its
destination, and those of the entries below it are longer still, so that a transfer may come to such
a limit although its source can be read and its destination is in order. `Passable` says that it
does not.

Where nothing else is in the way this is the only thing that a copy can fail of: none of the steps
of a passable transfer fails (`start_ok`, `copyChunk_ok`), and a copy of which no step has failed
was passable, which is what `Passed` keeps track of.
-/

namespace Haulage

open Disk

/-- The limits that a transfer of `p` to `d`, which ends in the name `n`, has to keep: the path of
the staged copy is not refused, nor that of anything in it, nor is a path in the source too long. -/
structure Passable (u : Tree) (d : Path) (n : String) (p : Payload) : Prop where
  refusal_eq : (staged d).refusal? = none
  size_le : (n ++ ".mlc.partial").utf8ByteSize ≤ maxName
  fits {rel : Location} (hne : rel ≠ []) (h : p.image u rel ≠ none) : Fits d rel
  readable {source : Path} (hsource : p.source? = some source) {rel : Location} (hne : rel ≠ [])
    (h : p.image u rel ≠ none) : (source.descend rel).isTooLong = false

namespace Session

variable {P : Location → Prop} {u t t' : Tree} {d source : Path} {init : List String} {n : String}
  {dir s : Location} {made rest pending : List Pending} {e : Pending}

/-- What is on the agenda is to be copied. -/
theorem image_of_agenda (hu : u.Sound) (hsource : u.resolve .reach source = .ok s)
    (he : e ∈ agenda u s) : (Payload.directory source).image u e.names ≠ none := by
  simp only [Payload.image, hsource]
  rcases ((mem_agenda hu).mp he).2 with ⟨-, hlook⟩ | ⟨-, id, hlook⟩
  · simp [Tree.node?_of_directory hlook, withoutLink]
  · simp [Tree.node?_of_file hlook, withoutLink]

/-- What is to be copied, other than the directory itself, is on the agenda. -/
theorem agenda_of_image (hu : u.Sound) (hsource : u.resolve .reach source = .ok s)
    {rel : Location} (hne : rel ≠ []) (h : (Payload.directory source).image u rel ≠ none) :
    ∃ e ∈ agenda u s, e.names = rel := by
  simp only [Payload.image, hsource] at h
  cases hnode : u.node? (s ++ rel) with
  | none => simp [hnode, withoutLink] at h
  | some x =>
    cases x with
    | directory =>
      have hlook := Tree.lookup_of_node?_directory hnode
      exact ⟨⟨rel, true⟩, (mem_agenda hu).mpr ⟨hne, .inl ⟨rfl, hlook⟩⟩, rfl⟩
    | file data =>
      obtain ⟨id, hid, -⟩ := Tree.lookup_of_node?_file hnode
      exact ⟨⟨rel, false⟩, (mem_agenda hu).mpr ⟨hne, .inr ⟨rfl, id, hid⟩⟩, rfl⟩
    | link target => simp [hnode, withoutLink] at h

end Session

/-- What is on the agenda of a passable transfer is within the limits. -/
theorem Passable.agenda {u : Tree} {d source : Path} {n : String} {s : Location}
    (h : Passable u d n (.directory source)) (hu : u.Sound)
    (hsource : u.resolve .reach source = .ok s) :
    ∀ x ∈ Session.agenda u s, Fits d x.names ∧ (source.descend x.names).isTooLong = false := by
  intro x hx
  have hne := ((Session.mem_agenda hu).mp hx).1
  have himage := Session.image_of_agenda hu hsource hx
  exact ⟨h.fits hne himage, h.readable rfl hne himage⟩

namespace Session

variable {P : Location → Prop} {u t t' : Tree} {d source : Path} {init : List String} {n : String}
  {dir s : Location} {made rest pending : List Pending} {e : Pending}

/-! ## Nothing fails -/

/-- An entry within the limits is turned to without failure. -/
theorem openEntry_ok (hx : Next u t d (stageAt dir n) s made e rest) (hb : Berth P u d init n dir)
    (hag : u.Agrees P t) (hsource : u.resolve .reach source = .ok s)
    (hdir : u.lookup s = some .directory) (hfit : Fits d e.names)
    (hlong : (source.descend e.names).isTooLong = false) :
    ∃ c, (openEntry t source d e).1 = .ok c := by
  obtain ⟨rel, m, hnames, hname⟩ := names_of_next hb.sound hx.split
  have hreached := hx.reached hb hag hnames
  have hvacant := hx.vacant hb.sound
  have hkeeps := hag.keeps fun _ => hb.bare
  rw [hnames] at hfit hlong
  have hseat := hreached.seats_of_fits hname hfit
  rw [hnames, ← List.append_assoc] at hvacant
  unfold openEntry
  rcases ((mem_agenda hb.sound).mp hx.mem).2 with ⟨hkind, -⟩ | ⟨hkind, id, hlook⟩
  · simp only [hkind, if_true, hnames, hseat.makeDirectories_vacant hvacant]
    exact ⟨_, rfl⟩
  · rw [hnames, ← List.append_assoc] at hlook
    have hdirs : ∀ r, r <+: rel → r ≠ [] → u.lookup (s ++ r) = some .directory := by
      intro r hr hne
      have hpre : r <+: e.names := hnames ▸ hr.trans (List.prefix_append rel [m])
      exact (holder_made hb.sound hx.split hpre hne (copied_around hb.sound hx.split hnames hr).1).2
    have hrefusal := Path.refusal?_descend (Tree.leads_of_resolve hsource hdir).1 hfit.1 hlong
    have hread := Tree.resolve_mono (Tree.resolve_below hsource hdir
      (fun k hk => ⟨hname k hk, hfit.2 k hk⟩) hdirs hlook (by simp) hrefusal) hkeeps
    simp only [hkind, Bool.false_eq_true, if_false, hnames, Tree.openRead, hread,
      hkeeps.lookup_eq hlook, (hreached.hasParents hname).makeParents_eq, startCopy,
      hseat.create_vacant hvacant]
    exact ⟨_, rfl⟩

/-- The entries of an agenda within the limits are gone through without failure. -/
theorem openNext_ok (hb : Berth P u d init n dir) (hsource : u.resolve .reach source = .ok s)
    (hdir : u.lookup s = some .directory) (hag : u.Agrees P t) (hnum : t.Numbered)
    (hsplit : agenda u s = made ++ pending)
    (hpass : ∀ x ∈ agenda u s, Fits d x.names ∧ (source.descend x.names).isTooLong = false)
    (hholds : t.Holds (stageAt dir n) (copied u s made)) :
    ∃ c, (openNext t source d pending).1 = .ok c := by
  induction pending generalizing t made with
  | nil => exact ⟨_, rfl⟩
  | cons e rest ih =>
    have hmade : ∀ x ∈ made, Fits d x.names := fun x hx =>
      (hpass x (hsplit ▸ List.mem_append_left _ hx)).1
    have hnext : Next u t d (stageAt dir n) s made e rest := ⟨hsplit, fun h => hmade _ h, hholds⟩
    obtain ⟨hfit, hlong⟩ := hpass e hnext.mem
    obtain ⟨c, hc⟩ := openEntry_ok hnext hb hag hsource hdir hfit hlong
    have hne := ((mem_agenda hb.sound).mp hnext.mem).1
    have hl : stageAt dir n ++ e.names ≠ [] := by simp [hne]
    unfold openNext
    rcases openEntry_cases hnext hb hag hsource hdir with
      ⟨f, hopen⟩ | ⟨hlook, -, hopen⟩ | ⟨id, -, -, hopen⟩
    · rw [hopen] at hc
      cases hc
    · simp only [hopen]
      have hchange : t.Changes (stageAt dir n <+: ·)
          (t.insert (stageAt dir n ++ e.names) .directory) :=
        Tree.changes_insert_directory hl (List.prefix_append _ _)
      have hmore := hholds.insert hl
      rw [← Tree.node?_of_directory hlook, update_copied hne] at hmore
      exact ih (hag.trans (hchange.toAgrees.mono fun _ => hb.covers)) (hchange.numbered hnum)
        (by rw [hsplit, List.append_assoc, List.singleton_append]) hmore
    · simp only [hopen]
      exact ⟨_, rfl⟩

/-- A step of a copy that reads a file does not fail. -/
theorem step_ok (t : Tree) (k : ℕ) {copy : OpenCopy} {id : ℕ} (hid : copy.source = .file id) :
    ∃ r, OpenCopy.step t k copy = .ok r := by
  rcases step_cases t k copy with ⟨l, hl, -⟩ | ⟨id', -, ⟨-, heq⟩ | ⟨-, heq⟩⟩
  · rw [hid] at hl
    cases hl
  · exact ⟨_, heq⟩
  · exact ⟨_, heq⟩

/-- Nor does a step of the file of a directory that is open. -/
theorem copyCurrent_ok (t : Tree) (k : ℕ) (source target d : Path) (pending : List Pending)
    {copy : OpenCopy} {id : ℕ} (hid : copy.source = .file id) :
    ∃ c, (copyCurrent k t source pending copy target d).1 = .ok c := by
  obtain ⟨⟨size, copy', t'⟩, hstep⟩ := step_ok t k hid
  cases size with
  | zero => exact ⟨.copied 0, by simp only [copyCurrent, hstep]⟩
  | succ size => exact ⟨.copied (size + 1), by simp only [copyCurrent, hstep]⟩

/-- A chunk of a copy within the limits is moved without failure. -/
theorem copyChunk_ok {p : Payload} {x : Session} (hb : Berth P u d init n dir)
    (hag : u.Agrees P t) (hnum : t.Numbered) (hpass : Passable u d n p)
    (hs : Suits u t d (stageAt dir n) p x) (k : ℕ) : ∃ c, (x.copyChunk k t).1 = .ok c := by
  cases hs with
  | @buffer data target position hpos hlook hholds =>
    by_cases hend : data.size ≤ position
    · exact ⟨.complete, by simp only [copyChunk, if_pos hend]⟩
    · exact ⟨.copied (data.slice position k).size, by simp only [copyChunk, if_neg hend]⟩
  | @file source s id target position hsource hid hpos hlook hholds =>
    have hopen : OpenCopy.source ⟨.file id, target, position, (u.data id).modified⟩ = .file id :=
      rfl
    obtain ⟨⟨size, copy', t'⟩, hstep⟩ := step_ok t k hopen
    cases size with
    | zero => exact ⟨.complete, by simp only [copyChunk, hstep]⟩
    | succ size => exact ⟨.copied (size + 1), by simp only [copyChunk, hstep]⟩
  | @between source s made pending hsource hdir hsplit hfit hholds =>
    obtain ⟨c, hc⟩ :=
      openNext_ok hb hsource hdir hag hnum hsplit (hpass.agenda hb.sound hsource) hholds
    have hturned := openNext_turned hb hsource hdir hag hnum hsplit hfit hholds
    cases hopen : openNext t source d pending with
    | mk r rest =>
      obtain ⟨rest, t'⟩ := rest
      rw [hopen] at hc hturned
      obtain rfl : r = .ok c := hc
      cases c with
      | none => exact ⟨.complete, by simp only [copyChunk, hopen]⟩
      | some current =>
        obtain ⟨copy, target⟩ := current
        simp only [copyChunk, hopen]
        cases hturned.opened rfl with
        | within => exact copyCurrent_ok _ _ _ _ _ _ rfl
  | within => exact copyCurrent_ok _ _ _ _ _ _ rfl

/-- A passable transfer is begun without failure. -/
theorem start_ok {p : Payload} (h : Clear u d init n) (hu : u.Sound) (hoffer : Offers u u p)
    (hpass : Passable u d n p) : ∃ x t, start u p d = (.ok x, t) := by
  obtain ⟨dir, hseat⟩ := (hasParents_staged h.endsIn h.parents).seats h.endsIn.staged
    hpass.refusal_eq hpass.size_le
  have hvacant := hseat.lookup_eq_none h.free
  cases hoffer with
  | @buffer data =>
    exact ⟨_, _, by simp only [start, openBuffer, h.parents.makeParents_eq,
      hseat.create_vacant hvacant]; rfl⟩
  | @file source s id hsource hid _ _ _ =>
    exact ⟨_, _, by simp only [start, openFile, startCopy, Tree.openRead, hsource, hid,
      h.parents.makeParents_eq, hseat.create_vacant hvacant]; rfl⟩
  | @directory source s hsource hdir _ _ _ =>
    have hfar : Tree.listsTooFar source (u.entriesBelow s) = false := by
      rw [Tree.listsTooFar, List.any_eq_false]
      rintro ⟨rel, e⟩ hmem hlong
      simp only [Bool.and_eq_true, decide_eq_true_eq] at hlong
      obtain ⟨hne, hlook⟩ := (Tree.mem_entriesBelow hu.distinct).mp hmem
      have hx : (⟨rel, true⟩ : Pending) ∈ agenda u s :=
        (mem_agenda hu).mpr ⟨hne, .inl ⟨rfl, hlong.1 ▸ hlook⟩⟩
      have hshort := (hpass.agenda hu hsource _ hx).2
      rw [hlong.2] at hshort
      cases hshort
    exact ⟨_, _, by simp only [start, openDirectory, Tree.listing_of_resolve hsource hdir hfar,
      h.parents.makeParents_eq, hseat.makeDirectories_vacant hvacant]; rfl⟩

end Session

/-! ## What a copy without failure has passed -/

namespace Session

variable {u t t' : Tree} {d source : Path} {made rest pending : List Pending} {e : Pending}
  {s : Location} {p : Payload}

/-- Only of a directory there is more to be copied than one thing. -/
theorem directory_of_image {rel : Location} (hne : rel ≠ []) (h : p.image u rel ≠ none) :
    ∃ source s, p = .directory source ∧ u.resolve .reach source = .ok s := by
  have halone (x : Node) : alone x rel = none := Function.update_of_ne hne _ _
  cases p with
  | buffer data => exact absurd (halone _) h
  | file source =>
    rcases hstatus : u.status source with f | x
    · simp [Payload.image, hstatus] at h
    · cases x <;> simp [Payload.image, hstatus, halone] at h
  | directory source =>
    cases hs : u.resolve .reach source with
    | error f => simp [Payload.image, hs] at h
    | ok s => exact ⟨source, s, rfl, hs⟩

/-- A transfer of a directory is passable if what is on its agenda is within the limits. -/
theorem passable_of_agenda (hu : u.Sound) {n : String} (hrefusal : (staged d).refusal? = none)
    (hsize : (n ++ ".mlc.partial").utf8ByteSize ≤ maxName)
    (hagenda : ∀ source s, p = .directory source → u.resolve .reach source = .ok s →
      ∀ e ∈ agenda u s, Fits d e.names ∧ (source.descend e.names).isTooLong = false) :
    Passable u d n p := by
  refine ⟨hrefusal, hsize, fun hne himage => ?_, fun hp _ hne himage => ?_⟩
  · obtain ⟨source, s, rfl, hsource⟩ := directory_of_image hne himage
    obtain ⟨e, he, rfl⟩ := agenda_of_image hu hsource hne himage
    exact (hagenda source s rfl hsource e he).1
  · obtain ⟨source, s, rfl, hsource⟩ := directory_of_image hne himage
    obtain rfl := Option.some.inj hp
    obtain ⟨e, he, rfl⟩ := agenda_of_image hu hsource hne himage
    exact (hagenda source s rfl hsource e he).2

/-- The path to a file that was turned to is not too long. -/
theorem openEntry_readable {c : Option (OpenCopy × Path)}
    (h : openEntry t source d e = (.ok c, t')) (hfile : e.isDirectory = false) :
    (source.descend e.names).isTooLong = false := by
  unfold openEntry at h
  simp only [hfile, Bool.false_eq_true, if_false] at h
  cases hread : t.openRead (source.descend e.names) with
  | error f => simp [hread] at h
  | ok handle =>
    cases hresolve : t.resolve .reach (source.descend e.names) with
    | error f => simp [Tree.openRead, hresolve] at hread
    | ok l =>
      have hplace := Tree.place_of_resolve hresolve
      unfold Tree.place at hplace
      split at hplace
      · cases hplace
      · rename_i hrefusal
        simpa [Path.isTooLong] using (Path.refusal?_eq_none.mp hrefusal).2.2

/-- So it is for all files that have been passed. -/
theorem openNext_readable {c : Option (OpenCopy × Path)}
    (h : openNext t source d pending = (.ok c, rest, t')) :
    ∀ x ∈ pending, x ∉ rest → x.isDirectory = false →
      (source.descend x.names).isTooLong = false := by
  induction pending generalizing t with
  | nil => simp
  | cons e pending ih =>
    unfold openNext at h
    intro x hx hrest hfile
    split at h
    · cases h
    · rename_i t₁ hopen
      rcases List.mem_cons.mp hx with rfl | hx
      · exact openEntry_readable hopen hfile
      · exact ih h x hx hrest hfile
    · rename_i current t₁ hopen
      obtain ⟨-, rfl, -⟩ : _ ∧ pending = rest ∧ _ := by simpa using h
      rcases List.mem_cons.mp hx with rfl | hx
      · exact openEntry_readable hopen hfile
      · exact absurd hx hrest

/-- The paths to the files of these entries that are not pending are not too long. -/
def Passed (source : Path) (entries : List Pending) : Session → Prop
  | .directory source' pending _ _ => source' = source ∧ ∀ x ∈ entries, x ∉ pending →
      x.isDirectory = false → (source.descend x.names).isTooLong = false
  | _ => True

/-- Each chunk keeps that. -/
theorem Passed.copyChunk {entries : List Pending} {x x' : Session} {k : ℕ} {c : Chunk}
    (h : x.Passed source entries) (hcopy : x.copyChunk k t = (.ok c, x', t')) :
    x'.Passed source entries := by
  have hcurrent {source' target d : Path} {pending : List Pending} {copy : OpenCopy} {t t' : Tree}
      {c : Chunk} (hcurrent : copyCurrent k t source' pending copy target d = (.ok c, x', t')) :
      ∃ current, x' = .directory source' pending current d := by
    unfold copyCurrent at hcurrent
    split at hcurrent <;> cases hcurrent <;> exact ⟨_, rfl⟩
  cases x with
  | file copy d =>
    simp only [Session.copyChunk] at hcopy
    split at hcopy <;> cases hcopy <;> trivial
  | buffer data position target d =>
    simp only [Session.copyChunk] at hcopy
    split at hcopy <;> cases hcopy <;> trivial
  | directory source' pending current d =>
    obtain ⟨rfl, hpassed⟩ := h
    cases current with
    | some current =>
      obtain ⟨current', rfl⟩ := hcurrent hcopy
      exact ⟨rfl, hpassed⟩
    | none =>
      have hnext {c rest t₁} (hopen : openNext t source' d pending = (.ok c, rest, t₁))
          (current : Option (OpenCopy × Path)) :
          (directory source' rest current d).Passed source' entries := by
        refine ⟨rfl, fun y hy hrest hfile => ?_⟩
        by_cases hpending : y ∈ pending
        · exact openNext_readable hopen y hpending hrest hfile
        · exact hpassed y hy hpending hfile
      simp only [Session.copyChunk] at hcopy
      split at hcopy
      · cases hcopy
      · rename_i rest t₁ hopen
        cases hcopy
        exact hnext hopen none
      · rename_i copy target rest t₁ hopen
        obtain ⟨current', rfl⟩ := hcurrent hcopy
        exact hnext hopen current'

/-- The copy of a directory that was opened has passed nothing, and no path to a directory in the
source is too long. -/
theorem passed_of_start (hsource : u.resolve .reach source = .ok s)
    (hdir : u.lookup s = some .directory) {x : Session}
    (hstart : start u (.directory source) d = (.ok x, t)) :
    x.Passed source (agenda u s) ∧ Tree.listsTooFar source (u.entriesBelow s) = false := by
  unfold start openDirectory at hstart
  simp only at hstart
  cases hlist : u.listing source with
  | error f => simp [hlist] at hstart
  | ok entries =>
    have hfar : Tree.listsTooFar source (u.entriesBelow s) = false := by
      unfold Tree.listing at hlist
      split at hlist
      · cases hlist
      · simp only [hsource, hdir] at hlist
        split at hlist
        · cases hlist
        · rename_i hshort
          simpa using hshort
    simp only [hlist] at hstart
    split at hstart
    · cases hstart
    · split at hstart
      · cases hstart
      · cases hstart
        refine ⟨⟨rfl, fun y hy hpending => absurd ?_ hpending⟩, hfar⟩
        rwa [agenda_of_listing hsource hdir hlist]

end Session

end Haulage
