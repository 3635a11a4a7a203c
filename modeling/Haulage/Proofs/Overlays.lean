import Haulage.Proofs.Outcome

/-!
# Directories laid over what was left

The copy of a directory is made on top of whatever an earlier attempt left at the place of its
staged copy. `overlaid` says what stands there at any time: the entries that have been copied so
far, and where there is none of them what was left. `Session.Overlies` says so of a session,
`copyChunk_overlies` is one step of it, and `Overlies.commit` its end.

So when the copy of a directory is done, that directory stands at the destination, each file with
its bytes and the time at which it was modified, laid over what was left, `Item.overlaid_after`. If
nothing was left the destination holds that directory and nothing else.
-/

namespace Haulage

open Disk (Location Node Path Tree)
open Disk.Tree (node?_of_directory node?_of_file)

variable {u t t' : Tree} {d source : Path} {init : List String} {n : String}
  {dir l s : Location} {made rest : List Pending} {e : Pending}

/-! ## Contents -/

/-- What stands at `l` on the ground, with some entries of the directory at `s` copied over it. -/
def overlaid (u : Tree) (l s : Location) (made : List Pending) (rel : Location) : Option Node :=
  (copied u s made rel).or (u.node? (l ++ rel))

/-- No file of the directory `source` lies at the entry that `p` names, or below. -/
def Disk.Tree.FilesOff (u : Tree) (source p : Path) : Prop :=
  ∀ s rel id, u.resolve .reach source = .ok s → u.lookup (s ++ rel) = some (.file id) →
    ¬u.Within p (s ++ rel)

/-- What stands at a plain location is what it holds. -/
theorem Disk.Tree.Plain.holds (h : t.Plain l) : t.Holds l fun rel => t.node? (l ++ rel) :=
  ⟨fun _ => rfl, fun {rel _ _} hrel hm => h.sole (List.prefix_append l rel) hrel hm⟩

theorem update_left (u : Tree) (l s : Location) :
    Function.update (fun rel => u.node? (l ++ rel)) [] (some .directory) = overlaid u l s [] := by
  funext rel
  by_cases hrel : rel = []
  · rw [hrel, Function.update_self]
    rfl
  · rw [Function.update_of_ne hrel, overlaid, copied, if_neg hrel]
    rfl

theorem update_overlaid (hne : e.names ≠ []) (hthere : u.lookup (s ++ e.names) ≠ none) :
    Function.update (overlaid u l s made) e.names (u.node? (s ++ e.names)) =
      overlaid u l s (made ++ [e]) := by
  funext rel
  rw [overlaid, ← update_copied hne]
  by_cases hrel : rel = e.names
  · obtain ⟨x, hx⟩ := Option.ne_none_iff_exists'.mp (mt Disk.Tree.node?_eq_none.mp hthere)
    rw [hrel, Function.update_self, Function.update_self, hx]
    rfl
  · rw [Function.update_of_ne hrel, Function.update_of_ne hrel, overlaid]

/-- The directories around an entry are copied before it. -/
theorem overlaid_around (hu : u.Sound) (hsplit : Session.agenda u s = made ++ e :: rest)
    {rel r : Location} {m : String} (hnames : e.names = rel ++ [m]) (hr : r <+: rel) :
    overlaid u l s made r = some .directory := by
  rw [overlaid, (Session.copied_around hu hsplit hnames hr).2.1]
  rfl

namespace Session

/-! ## Moving a chunk -/

/-- The ground on which the directory `source` is copied to `d`: no file of it lies at the place
of the staged copy. -/
structure Footing (u : Tree) (d : Path) (init : List String) (n : String) (dir : Location)
    (source : Path) (s : Location) : Prop where
  sound : u.Sound
  endsIn : d.EndsIn init n
  seats : u.Seats (staged d) dir (n ++ ".mlc.partial")
  resolve_eq : u.resolve .reach source = .ok s
  directory : u.lookup s = some .directory
  off {rel : Location} {id : Nat} (h : u.lookup (s ++ rel) = some (.file id)) :
    ¬stageAt dir n <+: s ++ rel

/-- The entries `made` of a directory have been copied, and those `pending` are yet to be. -/
structure Midway (u t : Tree) (d : Path) (n : String) (dir s : Location)
    (made pending : List Pending) : Prop where
  split : agenda u s = made ++ pending
  fits : ∀ x ∈ made, Fits d x.names
  worked : Tree.Worked (stageAt dir n <+: ·) (stageAt dir n) u t
  holds : t.Holds (stageAt dir n) (overlaid u (stageAt dir n) s made)

/-- What a session for a directory has done so far: the staged copy holds what was copied, laid
over what was left. -/
inductive Overlies (u t : Tree) (d : Path) (n : String) (dir : Location) (source : Path)
    (s : Location) : Session → Prop
  | between {made pending : List Pending} (h : Midway u t d n dir s made pending) :
      Overlies u t d n dir source s (.directory source pending none d)
  | within {made pending : List Pending} {e : Pending} {id target position : Nat}
      (hsplit : agenda u s = made ++ e :: pending) (hfit : ∀ x ∈ made ++ [e], Fits d x.names)
      (hid : u.lookup (s ++ e.names) = some (.file id))
      (hpos : position ≤ (u.data id).bytes.size)
      (hlook : t.lookup (stageAt dir n ++ e.names) = some (.file target))
      (hworked : Tree.Worked (stageAt dir n <+: ·) (stageAt dir n) u t)
      (hholds : t.Holds (stageAt dir n)
        (Function.update (overlaid u (stageAt dir n) s made) e.names
          (some (.file ⟨(u.data id).bytes.slice 0 position, none⟩)))) :
      Overlies u t d n dir source s
        (.directory source pending (some (⟨.file id, target, position, (u.data id).modified⟩,
          (staged d).descend e.names)) d)

/-- What turning to the next entry leaves: a failure, a directory, or an open file. -/
inductive Laid (u : Tree) (d : Path) (n : String) (dir : Location) (source : Path) (s : Location)
    (made rest : List Pending) (e : Pending) :
    Except CopyFailure (Option (OpenCopy × Path)) × Tree → Prop
  | failed {f : CopyFailure} {t : Tree} : Laid u d n dir source s made rest e (.error f, t)
  | directory {t : Tree} (h : Midway u t d n dir s (made ++ [e]) rest) :
      Laid u d n dir source s made rest e (.ok none, t)
  | file {copy : OpenCopy} {target : Path} {t : Tree}
      (h : Overlies u t d n dir source s (.directory source rest (some (copy, target)) d)) :
      Laid u d n dir source s made rest e (.ok (some (copy, target)), t)

namespace Footing

variable (hg : Footing u d init n dir source s)
include hg

/-- The files of the directory are read as they are on the ground. -/
theorem data_eq (hworked : Tree.Worked (stageAt dir n <+: ·) (stageAt dir n) u t) {rel : Location}
    {id : Nat} (hid : u.lookup (s ++ rel) = some (.file id)) : t.data id = u.data id :=
  hworked.alters.data_eq (hg.off hid) hid

section Entry

variable (h : Midway u t d n dir s made (e :: rest))
include h

/-- The path to the next entry of the staged copy ends in a name, in an existing directory. -/
theorem target : ∃ init' m, ((staged d).descend e.names).EndsIn init' m ∧
    t.HasParents ((staged d).descend e.names) ∧
    ∀ dir', t.Seats ((staged d).descend e.names) dir' m →
      dir' ++ [m] = stageAt dir n ++ e.names ∧ Fits d e.names := by
  obtain ⟨rel, m, hnames, hname⟩ := names_of_next hg.sound h.split
  have htarget := hg.endsIn.staged.descend (fun k hk => hname k (List.mem_append_left _ hk))
    (hname m (List.mem_append_right _ (List.mem_singleton_self m)))
  have hreached : Reached t d init n dir rel :=
    .of_next hg.sound h.split hnames hg.endsIn (hg.seats.mono h.worked.keeps) h.fits h.holds
      fun r hr => overlaid_around hg.sound h.split hnames hr
  rw [hnames]
  exact ⟨_, m, htarget, hreached.hasParents hname, fun dir' hs => hreached.seated hname hs⟩

/-- The next entry is a directory, and is made. -/
theorem openEntry_laid_directory (hkind : e.isDirectory = true) (hne : e.names ≠ [])
    (hlook : u.lookup (s ++ e.names) = some .directory) :
    Laid u d n dir source s made rest e (openEntry t source d e) := by
  obtain ⟨_, m, htarget, hparents, hseated⟩ := hg.target h
  have hraised := hparents.makeChain_raised (((staged d).descend e.names).text.length + 1)
  rw [← Tree.makeDirectories] at hraised
  unfold openEntry
  simp only
  rw [if_pos hkind]
  generalize t.makeDirectories ((staged d).descend e.names) = r at hraised
  obtain ⟨r, t₁⟩ := r
  cases r with
  | error f => exact .failed
  | ok _ =>
    obtain ⟨dir', hseat, hdone⟩ := hraised.holds htarget
    obtain ⟨hat, he⟩ := hseated dir' hseat
    obtain ⟨hw, hmade⟩ := hdone hat h.worked.plain h.holds
    rw [← node?_of_directory hlook, update_overlaid hne (by simp [hlook])] at hmade
    exact .directory ⟨by rw [h.split, List.append_assoc, List.singleton_append],
      List.forall_mem_append.mpr ⟨h.fits, List.forall_mem_singleton.mpr he⟩,
      h.worked.trans hw, hmade⟩

/-- The next entry is a file, and is opened. -/
theorem openEntry_laid_file (hkind : e.isDirectory = false) {id : Nat}
    (hlook : u.lookup (s ++ e.names) = some (.file id)) :
    Laid u d n dir source s made rest e (openEntry t source d e) := by
  obtain ⟨_, m, htarget, hparents, hseated⟩ := hg.target h
  have hnum := h.worked.alters.numbered hg.sound.numbered
  unfold openEntry
  simp only
  rw [if_neg (by simp [hkind])]
  cases hread : t.openRead (source.descend e.names) with
  | error f => exact .failed
  | ok handle =>
    obtain rfl := handle_of_next hg.sound h.split h.worked.keeps hg.resolve_eq hg.directory hlook
      hread
    simp only [hparents.makeParents_eq, startCopy]
    cases hcreate : t.create ((staged d).descend e.names) with
    | error f => exact .failed
    | ok created =>
      obtain ⟨target, t₁⟩ := created
      obtain ⟨dir', hseat⟩ := Tree.seats_of_create htarget hcreate
      obtain ⟨hat, he⟩ := hseated dir' hseat
      have hin : stageAt dir n <+: dir' ++ [m] := hat ▸ List.prefix_append _ _
      obtain ⟨hw, hthere, -⟩ := hseat.create_worked h.worked.plain hin hnum hcreate
      have hmade := hseat.create_holds hat h.worked.plain hnum h.holds hcreate
      rw [hat] at hthere
      rw [← Disk.Bytes.slice_zero (u.data id).bytes] at hmade
      simp only [handleModified, hg.data_eq h.worked hlook]
      exact .file (.within h.split
        (List.forall_mem_append.mpr ⟨h.fits, List.forall_mem_singleton.mpr he⟩) hlook
        (Nat.zero_le _) hthere (h.worked.trans (hw.mono fun r hr => hr ▸ hin)) hmade)

theorem openEntry_laid : Laid u d n dir source s made rest e (openEntry t source d e) := by
  have hmem : e ∈ agenda u s := h.split ▸ List.mem_append_right _ List.mem_cons_self
  obtain ⟨hne, ⟨hkind, hlook⟩ | ⟨hkind, id, hlook⟩⟩ := (mem_agenda hg.sound).mp hmem
  · exact hg.openEntry_laid_directory h hkind hne hlook
  · exact hg.openEntry_laid_file h hkind hlook

end Entry

/-- Going through the entries, if it succeeds, ends at an open file or at the end of the list. -/
theorem openNext_overlies {pending : List Pending} (h : Midway u t d n dir s made pending)
    {current : Option (OpenCopy × Path)}
    (hopen : openNext t source d pending = (.ok current, rest, t')) :
    Overlies u t' d n dir source s (.directory source rest current d) ∧
      (current = none → rest = []) := by
  induction pending generalizing t made with
  | nil =>
    simp only [openNext, Prod.mk.injEq, Except.ok.injEq] at hopen
    obtain ⟨rfl, rfl, rfl⟩ := hopen
    exact ⟨.between h, fun _ => rfl⟩
  | cons e pending ih =>
    have hlaid := hg.openEntry_laid h
    unfold openNext at hopen
    generalize openEntry t source d e = r at hlaid hopen
    cases hlaid with
    | failed => simp at hopen
    | directory hmade => exact ih hmade hopen
    | file hover =>
      simp only [Prod.mk.injEq, Except.ok.injEq] at hopen
      obtain ⟨rfl, rfl, rfl⟩ := hopen
      exact ⟨hover, by simp⟩

/-- A file of the directory is copied on, or closed at its end with the time of its source. -/
theorem copyCurrent_overlies {k : Nat} (hk : 0 < k) {pending : List Pending} {copy : OpenCopy}
    {target : Path}
    (h : Overlies u t d n dir source s (.directory source pending (some (copy, target)) d))
    {c : Chunk} {x : Session}
    (hcopy : copyCurrent k t source pending copy target d = (.ok c, x, t')) :
    Overlies u t' d n dir source s x ∧ c ≠ .complete := by
  cases h with
  | @within made _ e id target position hsplit hfit hid hpos hlook hworked hholds =>
    have hmem : e ∈ agenda u s := hsplit ▸ List.mem_append_right _ List.mem_cons_self
    have hne := ((mem_agenda hg.sound).mp hmem).1
    have hnum := hworked.alters.numbered hg.sound.numbered
    have hin : stageAt dir n <+: stageAt dir n ++ e.names := List.prefix_append _ _
    unfold copyCurrent at hcopy
    rcases openCopy_step target (u.data id).modified (hg.data_eq hworked hid) hpos hk with
      ⟨hend, hstep⟩ | ⟨hnz, hle, hstep⟩
    · rw [Disk.Bytes.slice_of_size_le hend] at hholds
      obtain ⟨rel, m, hnames, hname⟩ := names_of_next hg.sound hsplit
      obtain ⟨hmade, he⟩ := List.forall_mem_append.mp hfit
      have hreached : Reached t d init n dir rel :=
        .of_next hg.sound hsplit hnames hg.endsIn (hg.seats.mono hworked.keeps) hmade hholds
          fun r hr => by
            rw [Function.update_of_ne (copied_around hg.sound hsplit hnames hr).1]
            exact overlaid_around hg.sound hsplit hnames hr
      have hfits := he e (List.mem_singleton_self e)
      have hthere := hlook
      rw [hnames] at hfits hthere
      obtain ⟨hset, hdone⟩ := hreached.setModified hname hfits hnum hholds hthere
        (by rw [← hnames, Function.update_self]) (u.data id).modified
      rw [← hnames] at hset hdone
      rw [Function.update_idem, ← node?_of_file hid, update_overlaid hne (by simp [hid])] at hdone
      simp only [hstep, hset, Prod.mk.injEq, Except.ok.injEq] at hcopy
      obtain ⟨rfl, rfl, rfl⟩ := hcopy
      refine ⟨.between ⟨by rw [hsplit, List.append_assoc, List.singleton_append], hfit, ?_, hdone⟩,
        by simp⟩
      exact hworked.trans ((hworked.plain.setData hin hlook _).mono fun r hr => hr ▸ hin)
    · obtain ⟨-, hsame, hmore⟩ := append_chunk hholds hnum hlook (Function.update_self _ _ _) hpos k
      rw [Function.update_idem] at hmore
      obtain ⟨j, hj⟩ := Nat.exists_eq_succ_of_ne_zero hnz
      simp only [hstep, hj, Prod.mk.injEq, Except.ok.injEq] at hcopy
      obtain ⟨rfl, rfl, rfl⟩ := hcopy
      rw [← hj]
      refine ⟨.within hsplit hfit hid hle ((hsame _).trans hlook) ?_ hmore, by simp⟩
      exact hworked.trans ((hworked.plain.writeAt hin hlook _ _).mono fun r hr => hr ▸ hin)

/-- A step of a session, if it succeeds, goes on with what was copied so far. -/
theorem copyChunk_overlies {k : Nat} (hk : 0 < k) {x x' : Session}
    (h : Overlies u t d n dir source s x) {c : Chunk}
    (hcopy : x.copyChunk k t = (.ok c, x', t')) :
    Overlies u t' d n dir source s x' ∧ (c = .complete → Exhausted u x') := by
  cases h with
  | within hsplit hfit hid hpos hlook hworked hholds =>
    obtain ⟨hover, hc⟩ := hg.copyCurrent_overlies hk
      (.within hsplit hfit hid hpos hlook hworked hholds) hcopy
    exact ⟨hover, fun heq => absurd heq hc⟩
  | @between made pending hmid =>
    simp only [copyChunk] at hcopy
    split at hcopy
    · simp at hcopy
    · rename_i rest t₁ hopen
      obtain ⟨hover, hrest⟩ := hg.openNext_overlies hmid hopen
      obtain rfl := hrest rfl
      simp only [Prod.mk.injEq, Except.ok.injEq] at hcopy
      obtain ⟨rfl, rfl, rfl⟩ := hcopy
      exact ⟨hover, fun _ => ⟨rfl, rfl⟩⟩
    · rename_i copy target rest t₁ hopen
      obtain ⟨hover, hc⟩ := hg.copyCurrent_overlies hk (hg.openNext_overlies hmid hopen).1 hcopy
      exact ⟨hover, fun heq => absurd heq hc⟩

/-! ## Closing -/

/-- When a session to which nothing is left to copy is committed, the directory stands at the
destination, laid over what was left. -/
theorem commit_overlies {x : Session} (h : Overlies u t d n dir source s x)
    (hdone : Exhausted u x) (hcommit : x.commit t = (.ok (), t')) :
    t'.Holds (dir ++ [n]) fun rel =>
      (withoutLink (u.node? (s ++ rel))).or (u.node? (stageAt dir n ++ rel)) := by
  cases h with
  | within => simp [Exhausted] at hdone
  | @between made pending hmid =>
    obtain ⟨rfl, -⟩ := hdone
    have hsplit := hmid.split
    rw [List.append_nil] at hsplit
    have hholds := hmid.holds
    rw [← hsplit] at hholds
    unfold commit at hcommit
    simp only [timed, destination] at hcommit
    split at hcommit
    · rename_i t₁ hrename
      simp only [Prod.mk.injEq, true_and] at hcommit
      subst hcommit
      have hne : stageAt dir n ≠ dir ++ [n] := fun heq =>
        (stageAt_apart dir n).1 (heq ▸ List.prefix_refl _)
      obtain ⟨rfl, -⟩ := (hg.seats.mono hmid.worked.keeps).rename_ok
        ((hg.seats.destination hg.endsIn).mono hmid.worked.keeps) hne hrename
      have hmoved := hholds.relocate (stageAt_ne_nil dir n) (m := dir ++ [n]) (by simp)
      unfold overlaid at hmoved
      rwa [copied_agenda hg.sound hg.directory] at hmoved
    · simp at hcommit

end Footing

/-! ## Opening -/

/-- Opening the session of a directory, if it succeeds, begins with what was left. -/
theorem start_overlies (hd : d.EndsIn init n) (hplain : u.PlainAt (staged d))
    (hparents : u.HasParents d) (hsource : u.resolve .reach source = .ok s)
    (hdir : u.lookup s = some .directory) {x : Session}
    (hstart : start u (.directory source) d = (.ok x, t)) :
    ∃ dir, u.Seats (staged d) dir (n ++ ".mlc.partial") ∧ Overlies u t d n dir source s x := by
  have hraised := (hasParents_staged hd hparents).makeChain_raised ((staged d).text.length + 1)
  rw [← Tree.makeDirectories] at hraised
  change openDirectory u source d = _ at hstart
  unfold openDirectory at hstart
  split at hstart
  · simp at hstart
  · rename_i entries hlist
    simp only [hparents.makeParents_eq, agenda_of_listing hsource hdir hlist] at hstart
    generalize u.makeDirectories (staged d) = r at hraised hstart
    obtain ⟨r, t₁⟩ := r
    cases r with
    | error f => simp at hstart
    | ok _ =>
      simp only [Prod.mk.injEq, Except.ok.injEq] at hstart
      obtain ⟨rfl, rfl⟩ := hstart
      obtain ⟨dir, hseat, hdone⟩ := hraised.holds hd.staged
      have hleft := hplain dir _ hseat
      obtain ⟨hworked, hmade⟩ := hdone (List.append_nil _).symm hleft hleft.holds
      rw [update_left] at hmade
      exact ⟨dir, hseat, .between ⟨(List.nil_append _).symm, by simp, hworked, hmade⟩⟩

/-! ## Where a session leads -/

theorem destination_of_start {p : Payload} {x : Session} (h : start u p d = (.ok x, t)) :
    x.destination = d := by
  cases p with
  | buffer data =>
    simp only [start, openBuffer] at h
    split at h
    · simp at h
    · split at h
      · simp at h
      · simp only [Prod.mk.injEq, Except.ok.injEq] at h
        rw [← h.1]
        rfl
  | file source =>
    simp only [start, openFile] at h
    split at h
    · simp at h
    · split at h
      · simp at h
      · split at h
        · simp at h
        · simp only [Prod.mk.injEq, Except.ok.injEq] at h
          rw [← h.1]
          rfl
  | directory source =>
    simp only [start, openDirectory] at h
    split at h
    · simp at h
    · split at h
      · simp at h
      · split at h
        · simp at h
        · simp only [Prod.mk.injEq, Except.ok.injEq] at h
          rw [← h.1]
          rfl

theorem destination_copyChunk (k : Nat) (t : Tree) (x : Session) :
    (x.copyChunk k t).2.1.destination = x.destination := by
  have hcurrent : ∀ t source pending copy target d,
      (copyCurrent k t source pending copy target d).2.1.destination = d := by
    intro t source pending copy target d
    unfold copyCurrent
    split
    · rfl
    · rfl
    · rfl
  unfold copyChunk
  split
  · split
    · rfl
    · rfl
    · rfl
  · simp only
    split
    · rfl
    · rfl
  · exact hcurrent _ _ _ _ _ _
  · split
    · rfl
    · rfl
    · exact hcurrent _ _ _ _ _ _

/-- Only to a destination that ends in a name is a session committed. -/
theorem endsIn_of_commit {x : Session} (h : x.commit t = (.ok (), t')) :
    ∃ init n, x.destination.EndsIn init n := by
  unfold commit at h
  simp only at h
  split at h
  · rename_i hrename
    exact Tree.endsIn_of_rename hrename
  · simp at h

end Session

namespace Item

variable {i : Item}

/-- The source of a directory transfer that passes its check leads to a directory. -/
theorem directory_of_checkSource (hp : i.payload = .directory source)
    (hsource : i.checkSource u = .ok ()) :
    ∃ s, u.resolve .reach source = .ok s ∧ u.lookup s = some .directory := by
  have hoffers := offers_of_checkSource hsource
  rw [hp] at hoffers
  cases hoffers with
  | directory hreach hdir _ _ _ => exact ⟨_, hreach, hdir⟩

/-- An item that is done when it is finished was done before, and its copy has been committed. -/
theorem commit_of_done (h : (i.finish t).1.state = .done) :
    i.state = .done ∧ ∀ x, i.session = some x → x.commit t = (.ok (), (i.finish t).2) := by
  unfold finish at h ⊢
  split at h
  · rename_i hnone
    exact ⟨h, fun x hx => by simp [hnone] at hx⟩
  · rename_i x hx
    split at h
    · rename_i hdone
      refine ⟨hdone, fun y hy => ?_⟩
      obtain rfl := Option.some.inj (hx.symm.trans hy)
      rw [if_pos hdone]
      split at h
      · assumption
      · simp at h
    · rename_i hnot
      exact absurd h hnot

/-- Nothing is done without a buffer. -/
theorem exists_buffer_of_done {cues : List Cue} {buffer : ℕ}
    (hdone : (i.run cues buffer u).item.state = .done) : ∃ b : BufferSize, buffer = b := by
  by_contra hzero
  have hnot : ¬0 < buffer := fun hpos => hzero ⟨⟨buffer, hpos⟩, rfl⟩
  simp [run, hnot] at hdone

/-- When an item is done, the session that was opened for it has come to its end, chunk by chunk.
-/
theorem session_of_done (hsession : i.session = none) (hdest : i.destination = some d)
    {cues : List Cue} (hcues : ∀ c ∈ cues, c.edits = []) {buffer : BufferSize}
    (hdone : (i.run cues buffer u).item.state = .done) {I E : Session → Tree → Prop}
    (hstart : ∀ {x t}, Session.start u i.payload d = (.ok x, t) → I x t)
    (hcopied : ∀ {x t k x' t'}, I x t → x.copyChunk buffer t = (.ok (.copied k), x', t') → I x' t')
    (hcomplete : ∀ {x t x' t'}, I x t → x.copyChunk buffer t = (.ok .complete, x', t') → E x' t') :
    ∃ x, (i.run cues buffer u).item.session = some x ∧ E x (i.run cues buffer u).tree := by
  rw [run_outcome buffer hcues u hsession hdest] at hdone ⊢
  obtain ⟨hend, hlast, htree⟩ := outcome_of_done hdone
  rw [hlast, htree]
  unfold Payload.passage at hend ⊢
  split at hend
  · cases hend
  · rename_i x t hopen
    exact Session.passage_complete hcopied hcomplete (hstart hopen) hend

/-- That session is one for the destination of the item, which ends in a name if the session can be
committed. -/
theorem endsIn_of_done (hsession : i.session = none) (hdest : i.destination = some d)
    {cues : List Cue} (hcues : ∀ c ∈ cues, c.edits = []) {buffer : BufferSize}
    (hdone : (i.run cues buffer u).item.state = .done)
    (hcommit : ∀ x, (i.run cues buffer u).item.session = some x →
      x.commit (i.run cues buffer u).tree = (.ok (), t')) : ∃ init n, d.EndsIn init n := by
  have hkeeps : ∀ {x : Session} {t c x' t'}, x.destination = d →
      x.copyChunk buffer t = (.ok c, x', t') → x'.destination = d := by
    intro x t c x' t' hx hcopy
    have hsame := Session.destination_copyChunk buffer t x
    rw [hcopy] at hsame
    exact hsame.trans hx
  obtain ⟨x, hx, hd⟩ := session_of_done hsession hdest hcues hdone
    (I := fun x _ => x.destination = d) (E := fun x _ => x.destination = d)
    Session.destination_of_start hkeeps hkeeps
  exact hd ▸ Session.endsIn_of_commit (hcommit x hx)

/-- When the copy of a directory is done, that directory stands at the destination, laid over what
was left at the place of the staged copy: its directories, its files with their bytes and times,
and elsewhere what was left. If nothing was left, it stands there alone. -/
theorem overlaid_after (hu : u.Sound) (hp : i.payload = .directory source)
    (hplain : u.PlainAt (staged d)) (hoff : u.FilesOff source (staged d))
    (hsession : i.session = none) (hdest : i.destination = some d)
    (hsource : i.checkSource u = .ok ()) (hcheck : i.checkDestination u = .ok ())
    {cues : List Cue} (hcues : ∀ c ∈ cues, c.edits = []) (buffer : Nat) :
    let r := i.run cues buffer u
    let f := r.item.finish r.tree
    f.1.state = .done → ∃ dir n, u.Seats d dir n ∧
      (∀ rel, f.2.node? (dir ++ [n] ++ rel) =
        (i.payload.image u rel).or (u.node? (stageAt dir n ++ rel))) ∧
      ((∀ x, u.linkStatus (staged d) ≠ .ok x) →
        ∀ rel, f.2.node? (dir ++ [n] ++ rel) = i.payload.image u rel) := by
  intro r f hdone
  obtain ⟨-, hparents⟩ := Tree.hasParents_of_checkDestination hdest hcheck
  obtain ⟨s, hreach, hdir⟩ := directory_of_checkSource hp hsource
  obtain ⟨hran, hcommit⟩ := commit_of_done hdone
  obtain ⟨buffer, rfl⟩ := exists_buffer_of_done hran
  obtain ⟨init, n, hd⟩ := endsIn_of_done hsession hdest hcues hran hcommit
  obtain ⟨x, hx, dir, hg, hover, hend⟩ := session_of_done hsession hdest hcues hran
    (I := fun x t => ∃ dir, Session.Footing u d init n dir source s ∧
      Session.Overlies u t d n dir source s x)
    (E := fun x t => ∃ dir, Session.Footing u d init n dir source s ∧
      Session.Overlies u t d n dir source s x ∧ x.Exhausted u)
    (fun hstart => by
      obtain ⟨dir, hseat, hover⟩ :=
        Session.start_overlies hd hplain hparents hreach hdir (hp ▸ hstart)
      exact ⟨dir, ⟨hu, hd, hseat, hreach, hdir, fun hid hin =>
        hoff s _ _ hreach hid (hseat.within_iff.mpr hin)⟩, hover⟩)
    (fun hover hcopy => by
      obtain ⟨dir, hg, hover⟩ := hover
      exact ⟨dir, hg, (hg.copyChunk_overlies buffer.2 hover hcopy).1⟩)
    (fun hover hcopy => by
      obtain ⟨dir, hg, hover⟩ := hover
      obtain ⟨hover', hend⟩ := hg.copyChunk_overlies buffer.2 hover hcopy
      exact ⟨dir, hg, hover', hend rfl⟩)
  have hholds := hg.commit_overlies hover hend (hcommit x hx)
  have himage : i.payload.image u = fun rel => withoutLink (u.node? (s ++ rel)) := by
    simp only [hp, Payload.image, hreach]
  rw [himage]
  refine ⟨dir, n, hg.seats.destination hd, hholds.node?_eq, fun hfree rel => ?_⟩
  have hbare := hu.bare (hg.seats.lookup_eq_none hfree) (stageAt dir n ++ rel)
    (List.prefix_append _ rel)
  rw [hholds.node?_eq, Disk.Tree.node?_eq_none.mpr hbare, Option.or_none]

theorem filesOff_logs : logsTree.FilesOff ⟨"logs"⟩ (staged ⟨"out"⟩) := by
  intro s rel id hreach _ hin
  have hlogs : logsTree.resolve .reach ⟨"logs"⟩ = .ok [Tree.homeName, "logs"] := by decide +kernel
  obtain rfl := Except.ok.inj (hlogs.symm.trans hreach)
  rcases output_logs.mp (.inl hin) with h | h
  · exact absurd (List.prefix_of_prefix_length_le h (List.prefix_append _ rel) (by simp))
      (by decide)
  · exact absurd (List.prefix_of_prefix_length_le h (List.prefix_append _ rel) (by simp))
      (by decide)

/-- The logs are copied over what was left, and stand at the destination together with it. -/
theorem overlaid_after_logsRun :
    (logsRun.item.finish logsRun.tree).1.state = .done ∧ ∃ dir n, logsTree.Seats ⟨"out"⟩ dir n ∧
      (∀ rel, (logsRun.item.finish logsRun.tree).2.node? (dir ++ [n] ++ rel) =
        (logsItem.payload.image logsTree rel).or (logsTree.node? (stageAt dir n ++ rel))) ∧
      ((∀ x, logsTree.linkStatus (staged ⟨"out"⟩) ≠ .ok x) →
        ∀ rel, (logsRun.item.finish logsRun.tree).2.node? (dir ++ [n] ++ rel) =
          logsItem.payload.image logsTree rel) := by
  obtain ⟨hitem, htree⟩ :=
    run_opened (i := logsItem) 20 Nat.two_pos rfl rfl start_logs (by decide +kernel)
  have hdone : (logsRun.item.finish logsRun.tree).1.state = .done := by
    rw [logsRun, hitem, htree]
    decide +kernel
  exact ⟨hdone, overlaid_after sound_logs rfl plainAt_logs filesOff_logs rfl rfl (by decide +kernel)
    (by decide +kernel) (by simp) 2 hdone⟩

/-- A directory with a file, and what was left of the copy of another one. -/
def staleTree : Tree :=
  Tree.blank.edits [.write ⟨"logs/a"⟩ "first".toUTF8,
    .write ⟨"out.mlc.partial/stale"⟩ "old".toUTF8]

/-- The directory is copied. -/
def staleRun : RunResult := logsItem.run [] 64 staleTree

/-- The item of that copy when it is finished, and the tree. -/
def staleDone : Item × Tree := staleRun.item.finish staleRun.tree

/-- What was left comes along to the destination, where the source has no such entry. -/
theorem not_alone_after_staleRun :
    (logsItem.checkSource staleTree = .ok () ∧ logsItem.checkDestination staleTree = .ok () ∧
        staleTree.linkStatus ⟨"logs/stale"⟩ = .error .noEntry) ∧
      (staleDone.1.state = .done ∧
        staleDone.2.linkStatus ⟨"out/a"⟩ = .ok (.file ⟨"first".toUTF8, none⟩) ∧
        staleDone.2.linkStatus ⟨"out/stale"⟩ = .ok (.file ⟨"old".toUTF8, none⟩)) ∧
      ¬∃ dir n, staleTree.Seats ⟨"out"⟩ dir n ∧
        ∀ rel, staleDone.2.node? (dir ++ [n] ++ rel) = logsItem.payload.image staleTree rel := by
  have hlist : staleTree.listing ⟨"logs"⟩ =
      .ok (staleTree.entriesBelow [Tree.homeName, "logs"]) :=
    Tree.listing_of_sorted (x := .directory) (by decide +kernel) (by decide +kernel)
      (by decide +kernel) (by decide +kernel) (by decide +kernel)
  have hentries : (staleTree.entriesBelow [Tree.homeName, "logs"]).filterMap Session.pendingOf =
      [⟨["a"], false⟩] := by decide +kernel
  have hstart := Session.start_directory (d := ⟨"out"⟩) hlist (by decide +kernel)
    (by decide +kernel)
  rw [hentries] at hstart
  obtain ⟨hitem, htree⟩ :=
    run_opened (i := logsItem) 20 (by decide : 0 < 64) rfl rfl hstart (by decide +kernel)
  refine ⟨by decide +kernel, ?_, ?_⟩
  · rw [staleDone, staleRun, hitem, htree]
    decide +kernel
  · rintro ⟨dir, n, hseat, hall⟩
    have hholder : staleTree.holder ⟨"out"⟩ = .ok [Tree.homeName] := by decide +kernel
    have hlast : Tree.lastStep ⟨"out"⟩ = .name "out" := by decide +kernel
    obtain rfl := Except.ok.inj (hholder.symm.trans hseat.holder_eq)
    obtain rfl := Tree.LastStep.name.inj (hlast.symm.trans hseat.lastStep_eq)
    have hsource : logsItem.payload.image staleTree ["stale"] = none := by decide +kernel
    have hthere : staleDone.2.node? ([Tree.homeName] ++ ["out"] ++ ["stale"]) =
        some (.file ⟨"old".toUTF8, none⟩) := by
      rw [staleDone, staleRun, hitem, htree]
      decide +kernel
    rw [hall, hsource] at hthere
    simp at hthere

end Item

end Haulage
