import Haulage.Proofs.Outputs

/-!
# Copies over leftovers

A session that works over what an earlier attempt left still copies all that it
has listed: what was there of directories is kept, and a file is emptied before
it is written. `Session.Builds` says what part of the source the staged copy
holds, whatever else it holds. `copyChunk_advanced` is one step of a session,
`start_begun` its opening and `Builds.commit` its end.

Nothing of the source may lie in the output of the transfer, `Tree.Sourced`, so
that the source is read all the time as it was in the beginning.
-/

namespace Haulage

open Disk Disk.Tree

namespace Disk.Tree

/-- The source leads to `s`, and nothing that stands there or below lies in the output of the
transfer to `d`. -/
structure Sourced (u : Tree) (d source : Path) (s : Location) : Prop where
  sound : u.Sound
  resolve_eq : u.resolve .reach source = .ok s
  off {rel : Location} {x : Entry} (h : u.lookup (s ++ rel) = some x) : ¬u.Output d (s ++ rel)

/-- What stands at `s ++ rel` on the ground stands at `l ++ rel` too, a file with the same bytes.
Links do not count. -/
structure Replica (u t : Tree) (s l rel : Location) : Prop where
  directory (h : u.lookup (s ++ rel) = some .directory) : t.lookup (l ++ rel) = some .directory
  file {id : Nat} (h : u.lookup (s ++ rel) = some (.file id)) :
    ∃ id', t.lookup (l ++ rel) = some (.file id') ∧ (t.data id').bytes = (u.data id).bytes

namespace Replica

variable {u t t' : Tree} {s l l' rel : Location} {id id' : Nat}

theorem of_directory (h : u.lookup (s ++ rel) = some .directory)
    (hlook : t.lookup (l ++ rel) = some .directory) : Replica u t s l rel :=
  ⟨fun _ => hlook, fun hfile => by simp [h] at hfile⟩

theorem of_file (h : u.lookup (s ++ rel) = some (.file id))
    (hlook : t.lookup (l ++ rel) = some (.file id'))
    (hbytes : (t.data id').bytes = (u.data id).bytes) : Replica u t s l rel where
  directory hdir := by simp [h] at hdir
  file hfile := by
    rw [h] at hfile
    obtain rfl := Entry.file.inj (Option.some.inj hfile)
    exact ⟨id', hlook, hbytes⟩

theorem of_vacant (h : u.lookup (s ++ rel) = none) : Replica u t s l rel :=
  ⟨fun hdir => by simp [h] at hdir, fun hfile => by simp [h] at hfile⟩

theorem congr (h : Replica u t s l rel)
    (hlook : ∀ e, t.lookup (l ++ rel) = some e → t'.lookup (l' ++ rel) = some e)
    (hdata : ∀ id, t.lookup (l ++ rel) = some (.file id) →
      (t'.data id).bytes = (t.data id).bytes) : Replica u t' s l' rel where
  directory hdir := hlook _ (h.directory hdir)
  file hfile := by
    obtain ⟨id', hid, hbytes⟩ := h.file hfile
    exact ⟨id', hlook _ hid, (hdata id' hid).trans hbytes⟩

end Replica

end Disk.Tree

namespace Session

variable {u t t' : Tree} {d source : Path} {m : String} {dir s rel : Location}
  {made pending rest : List Pending} {e : Pending} {p : Payload}

/-- The staged copy of a directory holds the entries that have been made. -/
structure Built (u : Tree) (d : Path) (m : String) (dir s : Location) (made : List Pending)
    (t : Tree) : Prop where
  pitched : Pitched u d m dir t
  root : t.lookup (dir ++ [m]) = some .directory
  made {x : Pending} (h : x ∈ made) : Replica u t s (dir ++ [m]) x.names

namespace Built

theorem furnished (h : Built u d m dir s made t) (hf : Furnished (dir ++ [m]) t t') :
    Built u d m dir s made t' where
  pitched := h.pitched.worked hf.toWorked
  root := hf.keeps.lookup_eq h.root
  made hx := (h.made hx).congr (fun _ => hf.keeps.lookup_eq) fun id _ => by rw [hf.data_eq]

/-- Work at one entry leaves the copies of the others alone. -/
theorem worked (h : Built u d m dir s made t)
    (hw : Worked (· = dir ++ [m] ++ rel) (dir ++ [m]) t t')
    (hrel : rel ∉ made.map Pending.names) : Built u d m dir s made t' where
  pitched := h.pitched.worked (hw.mono fun r hr => hr ▸ List.prefix_append _ _)
  root := hw.keeps.lookup_eq h.root
  made {x} hx := by
    have hne : dir ++ [m] ++ x.names ≠ dir ++ [m] ++ rel := fun heq =>
      hrel (List.append_cancel_left heq ▸ List.mem_map_of_mem hx)
    exact (h.made hx).congr (fun _ => hw.keeps.lookup_eq) fun id hid => by
      rw [hw.alters.data_eq hne hid]

theorem add (h : Built u d m dir s made t) (he : Replica u t s (dir ++ [m]) e.names) :
    Built u d m dir s (made ++ [e]) t where
  pitched := h.pitched
  root := h.root
  made hx := by
    rcases List.mem_append.mp hx with hx | hx
    · exact h.made hx
    · rwa [List.mem_singleton.mp hx]

end Built

/-- What a session has done so far: what stands in the staged copy, whatever else is left there,
is the part of the payload that was moved. -/
inductive Builds (u : Tree) (d : Path) (m : String) (dir s : Location) (t : Tree) :
    Payload → Session → Prop
  | file {source : Path} {id target position : Nat} {modified : Option Stamp}
      (hpitched : Pitched u d m dir t) (hid : u.lookup s = some (.file id))
      (hpos : position ≤ (u.data id).bytes.size)
      (hlook : t.lookup (dir ++ [m]) = some (.file target))
      (hbytes : (t.data target).bytes = (u.data id).bytes.slice 0 position) :
      Builds u d m dir s t (.file source) (.file ⟨.file id, target, position, modified⟩ d)
  | between {source : Path} {made pending : List Pending}
      (hdir : u.lookup s = some .directory) (hsplit : agenda u s = made ++ pending)
      (hbuilt : Built u d m dir s made t) :
      Builds u d m dir s t (.directory source) (.directory source pending none d)
  | within {source : Path} {made pending : List Pending} {e : Pending} {id target position : Nat}
      {modified : Option Stamp} (hdir : u.lookup s = some .directory)
      (hsplit : agenda u s = made ++ e :: pending) (hbuilt : Built u d m dir s made t)
      (hid : u.lookup (s ++ e.names) = some (.file id))
      (hpos : position ≤ (u.data id).bytes.size)
      (hlook : t.lookup (dir ++ [m] ++ e.names) = some (.file target))
      (hbytes : (t.data target).bytes = (u.data id).bytes.slice 0 position) :
      Builds u d m dir s t (.directory source)
        (.directory source pending (some (⟨.file id, target, position, modified⟩,
          (staged d).descend e.names)) d)

namespace Builds

variable {x : Session}

theorem pitched (h : Builds u d m dir s t p x) : Pitched u d m dir t := by
  cases h with
  | file hpitched _ _ _ _ => exact hpitched
  | between _ _ hbuilt => exact hbuilt.pitched
  | within _ _ hbuilt _ _ _ _ => exact hbuilt.pitched

theorem destination_eq (h : Builds u d m dir s t p x) : x.destination = d := by
  cases h <;> rfl

end Builds

/-! ## Moving a chunk -/

/-- What one step of a session leaves: it worked at the staged copy only, and if it succeeded the
staged copy holds what was moved so far. -/
structure Advanced (u : Tree) (d : Path) (m : String) (dir s : Location) (p : Payload)
    (r : Except CopyFailure Chunk) (x : Session) (t : Tree) : Prop where
  pitched : Pitched u d m dir t
  destination_eq : x.destination = d
  builds {c : Chunk} (h : r = .ok c) : Builds u d m dir s t p x
  exhausted (h : r = .ok .complete) : Exhausted u x

theorem Advanced.of_builds {r : Except CopyFailure Chunk} {x : Session}
    (h : Builds u d m dir s t p x) (hend : r = .ok .complete → Exhausted u x) :
    Advanced u d m dir s p r x t :=
  ⟨h.pitched, h.destination_eq, fun _ => h, hend⟩

/-- A chunk that is written where it was read lengthens the copy by that chunk. -/
theorem write_chunk (hpitched : Pitched u d m dir t) {l : Location} {target position : Nat}
    {bs : Bytes} (hl : dir ++ [m] <+: l) (hlook : t.lookup l = some (.file target))
    (hbytes : (t.data target).bytes = bs.slice 0 position) (hpos : position ≤ bs.size) (k : Nat) :
    Worked (· = l) (dir ++ [m]) t (t.writeAt target position (bs.slice position k)) ∧
      ((t.writeAt target position (bs.slice position k)).data target).bytes =
        bs.slice 0 (position + (bs.slice position k).size) := by
  refine ⟨hpitched.plain.writeAt hl hlook _ _, ?_⟩
  rw [data_writeAt, if_pos ⟨rfl, hpitched.numbered _ _ hlook⟩, hbytes, Bytes.overwrite_slice hpos]

section Steps

variable {k : Nat}

theorem copyChunk_file_advanced (hk : 0 < k) (hs : Sourced u d source s) {copy : OpenCopy}
    (h : Builds u d m dir s t (.file source) (.file copy d)) :
    let r := copyChunk k t (.file copy d)
    Advanced u d m dir s (.file source) r.1 r.2.1 r.2.2 := by
  cases h with
  | @file _ id target position modified hpitched hid hpos hlook hbytes =>
    have hroot : u.lookup (s ++ []) = some (.file id) := by rwa [List.append_nil]
    have hdata := hpitched.alters.data_eq (hs.off hroot) hroot
    unfold copyChunk
    rcases openCopy_step target modified hdata hpos hk with ⟨hend, hstep⟩ | ⟨hne, hle, hstep⟩
    · simp only [hstep]
      refine .of_builds (.file hpitched hid hpos hlook hbytes) fun _ j hj => ?_
      rw [← Handle.file.inj hj]
      exact hend
    · obtain ⟨hw, hmore⟩ := write_chunk hpitched (List.prefix_refl _) hlook hbytes hpos k
      obtain ⟨c, hc⟩ := Nat.exists_eq_succ_of_ne_zero hne
      simp only [hstep, hc]
      rw [hc] at hle hmore
      exact .of_builds (.file (hpitched.worked (hw.mono fun r hr => hr ▸ List.prefix_refl _)) hid
        hle (hw.keeps.lookup_eq hlook) hmore) (by simp)

/-- The copy of the next entry is seated, if at all, where the entry has its place in the staged
copy. -/
theorem seat_of_next (hu : u.Sound) (hsplit : agenda u s = made ++ e :: rest) {init : List String}
    (hend : (staged d).EndsIn init m) (hpitched : Pitched u d m dir t) :
    ∃ init' n, ((staged d).descend e.names).EndsIn init' n ∧
      ∀ dir', t.Seats ((staged d).descend e.names) dir' n →
        dir' ++ [n] = dir ++ [m] ++ e.names := by
  obtain ⟨r, n, hnames, hname⟩ := names_of_next hu hsplit
  exact hpitched.seats.seat_of_names hend hpitched.plain (by simp [hnames]) (hnames ▸ hname)

/-- What turning to the next entry leaves: a failure, a directory, or an open file. -/
inductive Entered (u : Tree) (d source : Path) (m : String) (dir s : Location)
    (made rest : List Pending) (e : Pending) :
    Except CopyFailure (Option (OpenCopy × Path)) × Tree → Prop
  | failed {f : CopyFailure} {t : Tree} (hbuilt : Built u d m dir s made t) :
      Entered u d source m dir s made rest e (.error f, t)
  | directory {t : Tree} (hbuilt : Built u d m dir s (made ++ [e]) t) :
      Entered u d source m dir s made rest e (.ok none, t)
  | file {copy : OpenCopy} {target : Path} {t : Tree}
      (hbuilds : Builds u d m dir s t (.directory source)
        (.directory source rest (some (copy, target)) d)) :
      Entered u d source m dir s made rest e (.ok (some (copy, target)), t)

/-- The next entry is a directory, and is made. -/
theorem openEntry_directory (hs : Sourced u d source s) {init : List String}
    (hend : (staged d).EndsIn init m) (hsplit : agenda u s = made ++ e :: rest)
    (hbuilt : Built u d m dir s made t) (hkind : e.isDirectory = true)
    (hlook : u.lookup (s ++ e.names) = some .directory) :
    Entered u d source m dir s made rest e (openEntry t source d e) := by
  obtain ⟨r, n, hnames, hname⟩ := names_of_next hs.sound hsplit
  have hne : e.names ≠ [] := by simp [hnames]
  have hmade := makeChain_below hbuilt.pitched.seats hend hbuilt.pitched.plain hbuilt.root
    (((staged d).descend e.names).text.length + 1) hne fun i hi => hname i (hnames ▸ hi)
  rw [← makeDirectories] at hmade
  unfold openEntry
  simp only
  rw [if_pos hkind]
  generalize t.makeDirectories ((staged d).descend e.names) = done at hmade
  obtain ⟨done, t₁⟩ := done
  cases done with
  | error f => exact .failed (hbuilt.furnished hmade.furnished)
  | ok _ =>
    exact .directory ((hbuilt.furnished hmade.furnished).add
      (.of_directory hlook (hmade.lookup_eq rfl)))

/-- The next entry is a file, and is opened. -/
theorem openEntry_file (hs : Sourced u d source s) {init : List String}
    (hend : (staged d).EndsIn init m) (hdir : u.lookup s = some .directory)
    (hsplit : agenda u s = made ++ e :: rest) (hbuilt : Built u d m dir s made t)
    (hkind : e.isDirectory = false) {id : Nat}
    (hlook : u.lookup (s ++ e.names) = some (.file id)) :
    Entered u d source m dir s made rest e (openEntry t source d e) := by
  obtain ⟨r, n, hnames, hname⟩ := names_of_next hs.sound hsplit
  have hpitched := hbuilt.pitched
  unfold openEntry
  simp only
  rw [if_neg (by simp [hkind])]
  cases hread : t.openRead (source.descend e.names) with
  | error f => exact .failed hbuilt
  | ok handle =>
    have hhandle := handle_of_next hs.sound hsplit hpitched.keeps hs.resolve_eq hdir
      hlook hread
    subst hhandle
    have hf := makeParents_below hpitched.seats hend hpitched.plain hbuilt.root hname
    rw [← hnames] at hf
    simp only
    generalize t.makeParents ((staged d).descend e.names) = done at hf
    obtain ⟨done, t₁⟩ := done
    have hbuilt₁ := hbuilt.furnished hf
    cases done with
    | error f => exact .failed hbuilt₁
    | ok _ =>
      simp only [startCopy]
      cases hcreate : t₁.create ((staged d).descend e.names) with
      | error f => exact .failed hbuilt₁
      | ok made' =>
        obtain ⟨target, t₂⟩ := made'
        obtain ⟨_, _, hq, hat⟩ := seat_of_next hs.sound hsplit hend hbuilt₁.pitched
        obtain ⟨dir', hseat⟩ := seats_of_create hq hcreate
        obtain ⟨hw, hthere, hempty⟩ := hseat.create_worked hbuilt₁.pitched.plain
          (hat dir' hseat ▸ List.prefix_append _ _) hbuilt₁.pitched.numbered hcreate
        rw [hat dir' hseat] at hw hthere
        refine .file (.within hdir hsplit (hbuilt₁.worked hw (not_made hs.sound hsplit)) hlook
          (Nat.zero_le _) hthere ?_)
        rw [hempty, Bytes.slice_zero]

theorem openEntry_entered (hs : Sourced u d source s) {init : List String}
    (hend : (staged d).EndsIn init m) (hdir : u.lookup s = some .directory)
    (hsplit : agenda u s = made ++ e :: rest) (hbuilt : Built u d m dir s made t) :
    Entered u d source m dir s made rest e (openEntry t source d e) := by
  have hmem : e ∈ agenda u s := hsplit ▸ List.mem_append_right _ List.mem_cons_self
  rcases ((mem_agenda hs.sound).mp hmem).2 with ⟨hkind, hlook⟩ | ⟨hkind, id, hlook⟩
  · exact openEntry_directory hs hend hsplit hbuilt hkind hlook
  · exact openEntry_file hs hend hdir hsplit hbuilt hkind hlook

/-- What going through the entries leaves. -/
structure Visited (u : Tree) (d source : Path) (m : String) (dir s : Location)
    (r : Except CopyFailure (Option (OpenCopy × Path))) (rest : List Pending) (t : Tree) :
    Prop where
  pitched : Pitched u d m dir t
  complete (h : r = .ok none) : rest = [] ∧
    Builds u d m dir s t (.directory source) (.directory source [] none d)
  opened {copy : OpenCopy} {target : Path} (h : r = .ok (some (copy, target))) :
    Builds u d m dir s t (.directory source) (.directory source rest (some (copy, target)) d)

theorem openNext_visited (hs : Sourced u d source s) {init : List String}
    (hend : (staged d).EndsIn init m) (hdir : u.lookup s = some .directory)
    (hsplit : agenda u s = made ++ pending) (hbuilt : Built u d m dir s made t) :
    let r := openNext t source d pending
    Visited u d source m dir s r.1 r.2.1 r.2.2 := by
  induction pending generalizing t made with
  | nil =>
    exact ⟨hbuilt.pitched, fun _ => ⟨rfl, .between hdir hsplit hbuilt⟩,
      fun h => by simp [openNext] at h⟩
  | cons e rest ih =>
    have hentered := openEntry_entered hs hend hdir hsplit hbuilt
    unfold openNext
    generalize openEntry t source d e = r at hentered
    cases hentered with
    | failed hbuilt' =>
      exact ⟨hbuilt'.pitched, fun h => by simp at h, fun h => by simp at h⟩
    | directory hbuilt' =>
      exact ih (by rw [hsplit, List.append_assoc, List.singleton_append]) hbuilt'
    | file hbuilds =>
      refine ⟨hbuilds.pitched, fun h => by simp at h, fun h => ?_⟩
      simp only [Except.ok.injEq, Option.some.injEq, Prod.mk.injEq] at h
      rw [← h.1, ← h.2]
      exact hbuilds

/-- A file of a directory is copied on, or closed at its end. -/
theorem copyCurrent_advanced (hk : 0 < k) (hs : Sourced u d source s) {init : List String}
    (hend : (staged d).EndsIn init m) {copy : OpenCopy} {target : Path}
    (h : Builds u d m dir s t (.directory source)
      (.directory source pending (some (copy, target)) d)) :
    let r := copyCurrent k t source pending copy target d
    Advanced u d m dir s (.directory source) r.1 r.2.1 r.2.2 := by
  cases h with
  | @within _ made _ e id target position modified hdir hsplit hbuilt hid hpos hlook hbytes =>
    have hpitched := hbuilt.pitched
    have hnew := not_made hs.sound hsplit
    have hin : dir ++ [m] <+: dir ++ [m] ++ e.names := List.prefix_append _ _
    unfold copyCurrent
    rcases openCopy_step target modified (hpitched.alters.data_eq (hs.off hid) hid) hpos hk with
      ⟨hdone, hstep⟩ | ⟨hne, hle, hstep⟩
    · simp only [hstep]
      obtain ⟨_, _, hq, hat⟩ := seat_of_next hs.sound hsplit hend hpitched
      obtain ⟨hw, hsame⟩ := orSame_setModified_worked hq hpitched.plain hin hlook hat modified
      rw [Bytes.slice_of_size_le hdone] at hbytes
      exact .of_builds (.between hdir (by rw [hsplit, List.append_assoc, List.singleton_append])
        ((hbuilt.worked hw hnew).add
          (.of_file hid (hw.keeps.lookup_eq hlook) ((hsame target).trans hbytes)))) (by simp)
    · obtain ⟨hw, hmore⟩ := write_chunk hpitched hin hlook hbytes hpos k
      obtain ⟨c, hc⟩ := Nat.exists_eq_succ_of_ne_zero hne
      simp only [hstep, hc]
      rw [hc] at hle hmore
      exact .of_builds (.within hdir hsplit (hbuilt.worked hw hnew) hid hle
        (hw.keeps.lookup_eq hlook) hmore) (by simp)

/-- A step of a session works at the staged copy only, and goes on with what was moved so far. -/
theorem copyChunk_advanced (hk : 0 < k) (hs : Sourced u d source s) {init : List String}
    (hend : (staged d).EndsIn init m) (hp : p.source? = some source) {x : Session}
    (h : Builds u d m dir s t p x) :
    let r := copyChunk k t x
    Advanced u d m dir s p r.1 r.2.1 r.2.2 := by
  cases h with
  | file hpitched hid hpos hlook hbytes =>
    obtain rfl := Option.some.inj hp
    exact copyChunk_file_advanced hk hs (.file hpitched hid hpos hlook hbytes)
  | within hdir hsplit hbuilt hid hpos hlook hbytes =>
    obtain rfl := Option.some.inj hp
    exact copyCurrent_advanced hk hs hend (.within hdir hsplit hbuilt hid hpos hlook hbytes)
  | @between source' made pending hdir hsplit hbuilt =>
    obtain rfl := Option.some.inj hp
    have hvisited := openNext_visited hs hend hdir hsplit hbuilt
    simp only [copyChunk]
    generalize openNext t source' d pending = r at hvisited
    obtain ⟨r, rest, t₁⟩ := r
    cases r with
    | error f => exact ⟨hvisited.pitched, rfl, fun h => by simp at h, fun h => by simp at h⟩
    | ok current =>
      cases current with
      | none =>
        obtain ⟨hrest, hbuilds⟩ := hvisited.complete rfl
        simp only at hrest hbuilds
        subst hrest
        exact .of_builds hbuilds fun _ => ⟨rfl, rfl⟩
      | some current => exact copyCurrent_advanced hk hs hend (hvisited.opened rfl)

end Steps

/-! ## Opening -/

/-- What opening a session leaves: a tree that was altered at the output only, and if it succeeded
the beginning of a staged copy. -/
inductive Begun (u : Tree) (d : Path) (m : String) (s : Location) (p : Payload) :
    Except CopyFailure Session × Tree → Prop
  | failed {f : CopyFailure} {t : Tree} (halters : u.Alters (u.Output d) t) :
      Begun u d m s p (.error f, t)
  | begun {dir : Location} {x : Session} {t : Tree} (hbuilds : Builds u d m dir s t p x) :
      Begun u d m s p (.ok x, t)

section Opening

variable {init : List String} {n : String}

theorem openFile_begun (hs : Sourced u d source s) (hplain : u.PlainAt (staged d))
    (hparents : u.HasParents d) (hend : (staged d).EndsIn init m) {id : Nat}
    (hid : u.lookup s = some (.file id)) : Begun u d m s (.file source) (openFile u source d) := by
  have hground := prepared_refl (m := m) hs.sound hplain
  have hread : u.openRead source = .ok (.file id) := by
    simp only [openRead, hs.resolve_eq, hid]
  unfold openFile
  rw [hread]
  simp only [hparents.makeParents_eq, startCopy]
  cases hcreate : u.create (staged d) with
  | error e => exact .failed (hground.alters_discard hend)
  | ok made =>
    obtain ⟨target, t'⟩ := made
    obtain ⟨dir, hpitched, hlook, hempty⟩ := hground.create hend hcreate
    refine .begun (.file hpitched hid (Nat.zero_le _) hlook ?_)
    rw [hempty, Bytes.slice_zero]

theorem openDirectory_begun (hs : Sourced u d source s) (hplain : u.PlainAt (staged d))
    (hparents : u.HasParents d) (hseg : d.segments = init ++ [n])
    (hdir : u.lookup s = some .directory) :
    Begun u d (n ++ ".mlc.partial") s (.directory source) (openDirectory u source d) := by
  have hend := Path.endsIn_staged hseg
  unfold openDirectory
  cases hlist : u.listing source with
  | error e => exact .failed (.refl _ u)
  | ok entries =>
    have hagenda := agenda_of_listing hs.resolve_eq hdir hlist
    obtain ⟨t, hprepared, hraised⟩ := makeDirectories_staged hs.sound hplain hparents hseg
    simp only [hparents.makeParents_eq, hagenda]
    generalize u.makeDirectories (staged d) = made at hraised
    obtain ⟨made, t'⟩ := made
    cases made with
    | error e =>
      have ht : t' = t := by cases hraised; rfl
      subst ht
      exact .failed (hprepared.alters_discard hend)
    | ok _ =>
      obtain ⟨dir, hpitched, hroot⟩ := hprepared.raised hend hraised
      exact .begun (.between hdir (List.nil_append _).symm ⟨hpitched, hroot, by simp⟩)

/-- Opening a session over leftovers begins a staged copy, or alters the output only. -/
theorem start_begun (hs : Sourced u d source s) (hplain : u.PlainAt (staged d))
    (hparents : u.HasParents d) (hseg : d.segments = init ++ [n]) (hp : p.source? = some source)
    (hoffers : Offers u u p) : Begun u d (n ++ ".mlc.partial") s p (start u p d) := by
  cases hoffers with
  | buffer => simp [Payload.source?] at hp
  | @file _ s' id hsource hid _ _ _ =>
    obtain rfl := Option.some.inj hp
    obtain rfl := Except.ok.inj (hs.resolve_eq.symm.trans hsource)
    exact openFile_begun hs hplain hparents (Path.endsIn_staged hseg) hid
  | @directory _ s' hsource hdir _ _ _ =>
    obtain rfl := Option.some.inj hp
    obtain rfl := Except.ok.inj (hs.resolve_eq.symm.trans hsource)
    exact openDirectory_begun hs hplain hparents hseg hdir

end Opening

/-! ## Closing -/

section Closing

variable {x : Session} {init : List String}

/-- Giving a session up alters the output only. -/
theorem abandon_alters (hpitched : Pitched u d m dir t) (hend : (staged d).EndsIn init m)
    (hd : x.destination = d) : u.Alters (u.Output d) (x.abandon t) := by
  unfold Session.abandon dropStaged
  rw [hd]
  exact hpitched.alters_discard hend

/-- Once nothing is left to be moved, the staged copy holds the whole source. -/
theorem Builds.complete (h : Builds u d m dir s t p x) (hs : Sourced u d source s)
    (hend : (staged d).EndsIn init m) (hdone : Exhausted u x) :
    Pitched u d m dir (x.timed t) ∧ ∀ rel, Replica u (x.timed t) s (dir ++ [m]) rel := by
  cases h with
  | @file _ id target position modified hpitched hid hpos hlook hbytes =>
    have hself : dir ++ [m] <+: dir ++ [m] := List.prefix_refl _
    have hat : ∀ dir', t.Seats (staged d) dir' m → dir' ++ [m] = dir ++ [m] := fun dir' hseat => by
      rw [Except.ok.inj (hseat.holder_eq.symm.trans hpitched.seats.holder_eq)]
    obtain ⟨hw, hsame⟩ := orSame_setModified_worked hend hpitched.plain hself hlook hat
      modified
    rw [Bytes.slice_of_size_le (hdone id rfl)] at hbytes
    refine ⟨hpitched.worked (hw.mono fun r hr => hr ▸ hself), fun rel => ?_⟩
    by_cases hrel : rel = []
    · subst hrel
      rw [← List.append_nil s] at hid
      rw [← List.append_nil (dir ++ [m])] at hlook
      exact .of_file hid (hw.keeps.lookup_eq hlook) ((hsame target).trans hbytes)
    · -- nothing stands below a file
      refine .of_vacant (Option.eq_none_iff_forall_ne_some.mpr fun y hy => ?_)
      rw [hs.sound.directory_of_prefix rel hrel hy] at hid
      simp at hid
  | @between _ made pending hdir hsplit hbuilt =>
    obtain ⟨rfl, -⟩ := hdone
    rw [List.append_nil] at hsplit
    refine ⟨hbuilt.pitched, fun rel => ?_⟩
    by_cases hrel : rel = []
    · subst hrel
      rw [← List.append_nil s] at hdir
      exact .of_directory hdir (by rw [List.append_nil]; exact hbuilt.root)
    · refine ⟨fun hd => ?_, fun {j} hj => ?_⟩
      · have hmem : (⟨rel, true⟩ : Pending) ∈ made :=
          hsplit ▸ (mem_agenda hs.sound).mpr ⟨hrel, .inl ⟨rfl, hd⟩⟩
        exact (hbuilt.made hmem).directory hd
      · have hmem : (⟨rel, false⟩ : Pending) ∈ made :=
          hsplit ▸ (mem_agenda hs.sound).mpr ⟨hrel, .inr ⟨rfl, j, hj⟩⟩
        exact (hbuilt.made hmem).file hj
  | within => simp [Exhausted] at hdone

/-- Committing a session that is complete alters the output only, and if it succeeds the whole
source stands at the destination. -/
theorem Builds.commit (h : Builds u d m dir s t p x) (hs : Sourced u d source s)
    (hend : (staged d).EndsIn init m) (hdone : Exhausted u x) :
    u.Alters (u.Output d) (x.commit t).2 ∧ ((x.commit t).1 = .ok () →
      ∃ n, u.Seats d dir n ∧ ∀ rel, Replica u (x.commit t).2 s (dir ++ [n]) rel) := by
  obtain ⟨hpitched, hall⟩ := h.complete hs hend hdone
  have hd := h.destination_eq
  unfold Session.commit
  simp only [hd]
  cases hrename : (x.timed t).rename (staged d) d with
  | ok t' =>
    obtain ⟨n, hseat, halters, hlook, hdata⟩ := hpitched.rename hrename
    refine ⟨halters, fun _ => ⟨n, hseat, fun rel =>
      (hall rel).congr (fun e he => ?_) fun id _ => ?_⟩⟩
    · exact (hlook rel).trans he
    · exact congrArg FileData.bytes (hdata id)
  | error e =>
    exact ⟨abandon_alters hpitched hend hd, fun hok => by simp at hok⟩

end Closing

end Session

end Haulage
