import Haulage.Copy.Progress
import Haulage.Proofs.Listings

/-!
# Staged copies

A session builds its staged copy out of what it reads, and at any time the
staged copy holds a known part of what is to be transferred. `Session.Suits`
says which part that is, for each kind of session; `Payload.image` is the whole.

The tree as it would be without any transfers is called the ground. A `Berth` is
the place of one staged copy beside its destination: nothing stands there on the
ground, and the way to it leads through the ground only. Whatever else happens
to the tree, as long as it does not touch the berth or the ground, the steps of
a session do there what they would do alone.
-/

namespace Haulage

open Disk

/-! ## Contents -/

/-- A single node, with nothing below it. -/
def alone (x : Node) : Location → Option Node := Function.update (fun _ => none) [] (some x)

/-- What a copy of the directory at `s` holds once the given entries have been copied. -/
def copied (u : Tree) (s : Location) (made : List Pending) (rel : Location) : Option Node :=
  if rel = [] then some .directory
  else if rel ∈ made.map Pending.names then u.node? (s ++ rel)
  else none

/-- A node as it is copied: links are left out. -/
def withoutLink : Option Node → Option Node
  | some (.link _) => none
  | x => x

/-- What the transfer of a payload is to bring to its destination, from there on. -/
def Payload.image (u : Tree) : Payload → Location → Option Node
  | .buffer data => alone (.file ⟨data, none⟩)
  | .file source => match u.status source with
    | .ok (.file d) => alone (.file d)
    | _ => fun _ => none
  | .directory source => match u.resolve .reach source with
    | .ok s => fun rel => withoutLink (u.node? (s ++ rel))
    | .error _ => fun _ => none

section Contents

variable {u : Tree} {s : Location} {made : List Pending} {e : Pending}

@[simp] theorem copied_nil : copied u s made [] = some .directory := rfl

theorem update_copied (hne : e.names ≠ []) :
    Function.update (copied u s made) e.names (u.node? (s ++ e.names)) =
      copied u s (made ++ [e]) := by
  funext rel
  by_cases hrel : rel = e.names
  · rw [hrel, Function.update_self, copied, if_neg hne, if_pos (by simp)]
  · rw [Function.update_of_ne hrel, copied, copied]
    simp [hrel]

theorem update_alone (x y : Node) :
    Function.update (alone x) [] (some y) = alone y := by
  simp [alone]

/-- Once all that was listed has been copied, the copy is complete. -/
theorem copied_agenda (h : u.Sound) (hdir : u.lookup s = some .directory) :
    copied u s (Session.agenda u s) = fun rel => withoutLink (u.node? (s ++ rel)) := by
  funext rel
  unfold copied
  by_cases hrel : rel = []
  · rw [if_pos hrel, hrel, List.append_nil, Tree.node?_of_directory hdir]
    rfl
  rw [if_neg hrel]
  have hmem : rel ∈ (Session.agenda u s).map Pending.names ↔
      u.lookup (s ++ rel) = some .directory ∨ ∃ id, u.lookup (s ++ rel) = some (.file id) := by
    rw [List.mem_map]
    constructor
    · rintro ⟨p, hp, rfl⟩
      rcases ((Session.mem_agenda h).mp hp).2 with ⟨-, hd⟩ | ⟨-, hf⟩
      · exact .inl hd
      · exact .inr hf
    · rintro (hd | hf)
      · exact ⟨⟨rel, true⟩, (Session.mem_agenda h).mpr ⟨hrel, .inl ⟨rfl, hd⟩⟩, rfl⟩
      · exact ⟨⟨rel, false⟩, (Session.mem_agenda h).mpr ⟨hrel, .inr ⟨rfl, hf⟩⟩, rfl⟩
  cases hlook : u.lookup (s ++ rel) with
  | none => simp [hmem, hlook, Tree.node?, withoutLink]
  | some x =>
    cases x with
    | directory => simp [hmem, hlook, Tree.node?, withoutLink]
    | file id => simp [hmem, hlook, Tree.node?, withoutLink]
    | link target => simp [hmem, hlook, Tree.node?, withoutLink]

end Contents

namespace Disk.Bytes

theorem slice_of_size_le {bs : Bytes} {n : Nat} (h : bs.size ≤ n) : bs.slice 0 n = bs := by
  rw [slice, Nat.zero_add, Nat.min_eq_right h, ByteArray.extract_zero_size]

theorem slice_zero (bs : Bytes) : bs.slice 0 0 = .empty := by
  rw [slice, ByteArray.extract_eq_empty_iff]
  omega

/-- A chunk that is written where it was read lengthens the copy by that chunk. -/
theorem overwrite_slice {bs : Bytes} {m : Nat} (h : m ≤ bs.size) (n : Nat) :
    (bs.slice 0 m).overwrite m (bs.slice m n) = bs.slice 0 (m + (bs.slice m n).size) := by
  have hsize : (bs.slice 0 m).size = m := by
    rw [size_slice]
    omega
  have happend := overwrite_size (bs.slice 0 m) (bs.slice m n)
  have hslices := slice_append_slice bs 0 m n
  rw [Nat.zero_add] at hslices
  rw [hsize, hslices] at happend
  rw [happend, slice, slice, size_slice]
  congr 1
  omega

end Disk.Bytes

/-! ## Berths -/

/-- The place of the staged copy beside an entry `n` of the directory `dir`. -/
def stageAt (dir : Location) (n : String) : Location := dir ++ [n ++ ".mlc.partial"]

theorem stageAt_ne_nil (dir : Location) (n : String) : stageAt dir n ≠ [] := by
  simp [stageAt]

/-- The staged copy for the destination `d` has its place among the locations `P`, at which
nothing stands on the ground `u`. -/
structure Berth (P : Location → Prop) (u : Tree) (d : Path) (init : List String) (n : String)
    (dir : Location) : Prop where
  sound : u.Sound
  endsIn : d.EndsIn init n
  seats : u.Seats (staged d) dir (n ++ ".mlc.partial")
  covers {l : Location} (h : stageAt dir n <+: l) : P l
  bare {l : Location} (h : P l) : u.lookup l = none

/-- The destination is seated beside the staged copy. -/
theorem Disk.Tree.Seats.destination {u : Tree} {d : Path} {init : List String} {n : String}
    {dir : Location} (h : u.Seats (staged d) dir (n ++ ".mlc.partial")) (hd : d.EndsIn init n) :
    u.Seats d dir n := by
  have hend := hd.staged
  obtain ⟨hrefusal, k, hleads⟩ := Tree.holder_eq_ok.mp h.holder_eq
  have horigin : Tree.origin u.home (staged d) = Tree.origin u.home d := by
    rw [Tree.origin, Tree.origin, hend.isAbsolute_eq, hd.isAbsolute_eq]
  rw [horigin, hend.names_eq, List.dropLast_concat] at hleads
  have hsize := h.size_le
  rw [String.utf8ByteSize_append] at hsize
  refine ⟨Tree.holder_eq_ok.mpr ⟨?_, k, ?_⟩, hd.lastStep_eq, by omega, hd.endsWithSlash_eq⟩
  · exact Path.refusal?_of_append hrefusal rfl hd.text_ne
  · rwa [hd.names_eq, List.dropLast_concat]

theorem Berth.seats_destination {P : Location → Prop} {u : Tree} {d : Path} {init : List String}
    {n : String} {dir : Location} (hb : Berth P u d init n dir) : u.Seats d dir n :=
  hb.seats.destination hb.endsIn

theorem stageAt_apart (dir : Location) (n : String) :
    ¬stageAt dir n <+: dir ++ [n] ∧ ¬dir ++ [n] <+: stageAt dir n := by
  have hne : n ++ ".mlc.partial" ≠ n := by
    intro h
    have hlen := congrArg String.length h
    rw [String.length_append] at hlen
    have : ".mlc.partial".length = 12 := rfl
    omega
  constructor
  · intro h
    have heq := h.eq_of_length (by simp [stageAt])
    exact hne (List.singleton_inj.mp (List.append_cancel_left heq))
  · intro h
    have heq := h.eq_of_length (by simp [stageAt])
    exact hne (List.singleton_inj.mp (List.append_cancel_left heq)).symm

/-- The path to an entry of the staged copy has been walked along. -/
def Fits (d : Path) (rel : Location) : Prop :=
  ((staged d).descend rel).refusal? = none ∧ ∀ m ∈ rel, m.utf8ByteSize ≤ maxName

namespace Session

/-- What a session for the payload has done so far: the staged copy at `l` holds the part of
the payload that was moved, as it is on the ground. -/
inductive Suits (u t : Tree) (d : Path) (l : Location) : Payload → Session → Prop
  | buffer {data : Bytes} {target position : Nat} (hpos : position ≤ data.size)
      (hlook : t.lookup l = some (.file target))
      (hholds : t.Holds l (alone (.file ⟨data.slice 0 position, none⟩))) :
      Suits u t d l (.buffer data) (.buffer data position target d)
  | file {source : Path} {s : Location} {id target position : Nat}
      (hsource : u.resolve .reach source = .ok s) (hid : u.lookup s = some (.file id))
      (hpos : position ≤ (u.data id).bytes.size) (hlook : t.lookup l = some (.file target))
      (hholds : t.Holds l (alone (.file ⟨(u.data id).bytes.slice 0 position, none⟩))) :
      Suits u t d l (.file source)
        (.file ⟨.file id, target, position, (u.data id).modified⟩ d)
  | between {source : Path} {s : Location} {made pending : List Pending}
      (hsource : u.resolve .reach source = .ok s) (hdir : u.lookup s = some .directory)
      (hsplit : agenda u s = made ++ pending) (hfit : ∀ e ∈ made, Fits d e.names)
      (hholds : t.Holds l (copied u s made)) :
      Suits u t d l (.directory source) (.directory source pending none d)
  | within {source : Path} {s : Location} {made pending : List Pending} {e : Pending}
      {id target position : Nat}
      (hsource : u.resolve .reach source = .ok s) (hdir : u.lookup s = some .directory)
      (hsplit : agenda u s = made ++ e :: pending) (hfit : ∀ x ∈ made ++ [e], Fits d x.names)
      (hid : u.lookup (s ++ e.names) = some (.file id))
      (hpos : position ≤ (u.data id).bytes.size)
      (hlook : t.lookup (l ++ e.names) = some (.file target))
      (hholds : t.Holds l (Function.update (copied u s made) e.names
        (some (.file ⟨(u.data id).bytes.slice 0 position, none⟩)))) :
      Suits u t d l (.directory source)
        (.directory source pending (some (⟨.file id, target, position, (u.data id).modified⟩,
          (staged d).descend e.names)) d)

/-- Nothing is left to be moved. -/
def Exhausted (u : Tree) : Session → Prop
  | .file copy _ => ∀ id, copy.source = .file id → (u.data id).bytes.size ≤ copy.position
  | .buffer data position _ _ => data.size ≤ position
  | .directory _ pending current _ => pending = [] ∧ current = none

/-- What stands at `l` goes when it is removed, with all that is below it. -/
def Clearable (t : Tree) (l : Location) : Prop :=
  t.lookup l = some .directory ∨ ∀ rel, rel ≠ [] → t.lookup (l ++ rel) = none

namespace Suits

variable {u t t' : Tree} {d : Path} {l : Location} {p : Payload} {s : Session}

theorem destination_eq (h : Suits u t d l p s) : s.destination = d := by
  cases h <;> rfl

/-- Whatever was copied, it can be removed as a whole. -/
theorem clearable (h : Suits u t d l p s) (hu : u.Sound) : Clearable t l := by
  have hfile : ∀ {x : Node}, t.Holds l (alone x) → Clearable t l := by
    intro x hholds
    exact .inr fun rel hrel => hholds.vacant (Function.update_of_ne hrel _ _)
  have hdirectory : ∀ {f : Location → Option Node}, t.Holds l f → f [] = some .directory →
      Clearable t l := by
    intro f hholds hf
    have hlook := hholds.directory hf
    rw [List.append_nil] at hlook
    exact .inl hlook
  cases h with
  | buffer _ _ hholds => exact hfile hholds
  | file _ _ _ _ hholds => exact hfile hholds
  | between _ _ _ _ hholds => exact hdirectory hholds copied_nil
  | @within _ _ _ _ e _ _ _ _ _ hsplit _ _ _ _ hholds =>
    have hmem : e ∈ agenda u _ := hsplit ▸ List.mem_append_right _ List.mem_cons_self
    have hne : [] ≠ e.names := ((mem_agenda hu).mp hmem).1.symm
    exact hdirectory hholds (by rw [Function.update_of_ne hne, copied_nil])

/-- What happens elsewhere leaves a staged copy alone. -/
theorem frame (h : Suits u t d l p s) {Q : Location → Prop} (hc : t.Changes Q t')
    (hoff : ∀ m, l <+: m → ¬Q m) (hnum : t.Numbered) : Suits u t' d l p s := by
  have hlook : ∀ rel, t'.lookup (l ++ rel) = t.lookup (l ++ rel) := fun rel =>
    hc.lookup_eq (hoff _ (List.prefix_append l rel))
  have hroot : t'.lookup l = t.lookup l := hc.lookup_eq (hoff _ (List.prefix_refl l))
  cases h with
  | buffer hpos htarget hholds =>
    exact .buffer hpos (hroot.trans htarget) (hholds.frame hc hoff hnum)
  | file hsource hid hpos htarget hholds =>
    exact .file hsource hid hpos (hroot.trans htarget) (hholds.frame hc hoff hnum)
  | between hsource hdir hsplit hfit hholds =>
    exact .between hsource hdir hsplit hfit (hholds.frame hc hoff hnum)
  | within hsource hdir hsplit hfit hid hpos htarget hholds =>
    exact .within hsource hdir hsplit hfit hid hpos ((hlook _).trans htarget)
      (hholds.frame hc hoff hnum)

end Suits

/-! ## Moving a chunk -/

section Steps

variable {P : Location → Prop} {u t t' : Tree} {d : Path} {init : List String} {n : String}
  {dir : Location}

/-- One chunk of an open copy. The source is read as it is on the ground. -/
theorem openCopy_step {id position : Nat} (target : Nat) (modified : Option Stamp)
    (hdata : t.data id = u.data id) (hpos : position ≤ (u.data id).bytes.size) {k : Nat}
    (hk : 0 < k) :
    let chunk := (u.data id).bytes.slice position k
    ((u.data id).bytes.size ≤ position ∧
        OpenCopy.step t k ⟨.file id, target, position, modified⟩ =
          .ok (0, ⟨.file id, target, position, modified⟩, t)) ∨
      (chunk.size ≠ 0 ∧ position + chunk.size ≤ (u.data id).bytes.size ∧
        OpenCopy.step t k ⟨.file id, target, position, modified⟩ =
          .ok (chunk.size, ⟨.file id, target, position + chunk.size, modified⟩,
            t.writeAt target position chunk)) := by
  intro chunk
  have hread : t.readAt id position k = chunk := by rw [Tree.readAt, hdata]
  have hsize : chunk.size = min k ((u.data id).bytes.size - position) := Bytes.size_slice _ _ _
  rcases step_cases t k ⟨.file id, target, position, modified⟩ with ⟨_, hdir, -⟩ | ⟨_, hfile, hstep⟩
  · cases hdir
  · obtain rfl := Disk.Handle.file.inj hfile
    simp only [hread] at hstep
    rcases hstep with ⟨hempty, hstep⟩ | ⟨hne, hstep⟩
    · exact .inl ⟨by omega, hstep⟩
    · exact .inr ⟨hne, by omega, hstep⟩

/-- A chunk of `bs` that is written into a staged file which holds what comes before it. -/
theorem append_chunk {l rel : Location} {f : Location → Option Node} (hholds : t.Holds l f)
    (hnum : t.Numbered) {target position : Nat} {bs : Bytes}
    (hlook : t.lookup (l ++ rel) = some (.file target))
    (hf : f rel = some (.file ⟨bs.slice 0 position, none⟩)) (hpos : position ≤ bs.size) (k : Nat) :
    let t' := t.writeAt target position (bs.slice position k)
    t.Changes (l <+: ·) t' ∧ (∀ m, t'.lookup m = t.lookup m) ∧
      t'.Holds l (Function.update f rel
        (some (.file ⟨bs.slice 0 (position + (bs.slice position k).size), none⟩))) := by
  intro t'
  refine ⟨Tree.changes_writeAt _ fun m hm => ?_, fun _ => rfl, ?_⟩
  · exact hholds.sole hlook hm ▸ List.prefix_append l rel
  · have hdata := hholds.file hlook
    rw [hf] at hdata
    have hwrite := hholds.writeAt hnum hlook position (bs.slice position k)
    rwa [← Node.file.inj (Option.some.inj hdata), Bytes.overwrite_slice hpos] at hwrite

/-- What one step of a session leaves: only the staged copy at `l` was changed, it can be removed
as a whole, and if the step succeeded it holds what was moved so far. -/
structure Moved (u t t' : Tree) (d : Path) (l : Location) (p : Payload)
    (r : Except CopyFailure Chunk) (s' : Session) : Prop where
  changes : t.Changes (l <+: ·) t'
  clearable : Clearable t' l
  destination_eq : s'.destination = d
  suits {c : Chunk} (h : r = .ok c) : Suits u t' d l p s'
  exhausted (h : r = .ok .complete) : Exhausted u s'

theorem Moved.of_suits {l : Location} {p : Payload} {r : Except CopyFailure Chunk}
    {s' : Session} (hu : u.Sound) (hc : t.Changes (l <+: ·) t') (hs : Suits u t' d l p s')
    (hr : r = .ok .complete → Exhausted u s') : Moved u t t' d l p r s' :=
  ⟨hc, hs.clearable hu, hs.destination_eq, fun _ => hs, hr⟩

theorem copyChunk_buffer {l : Location} {data : Bytes} {target position k : Nat}
    (hu : u.Sound) (hnum : t.Numbered)
    (hs : Suits u t d l (.buffer data) (.buffer data position target d)) :
    let r := copyChunk k t (.buffer data position target d)
    Moved u t r.2.2 d l (.buffer data) r.1 r.2.1 := by
  cases hs with
  | buffer hpos hlook hholds =>
    have hroot : t.lookup (l ++ []) = some (.file target) := by rwa [List.append_nil]
    unfold copyChunk
    simp only
    split
    · rename_i hend
      exact .of_suits hu (.refl _ _) (.buffer hpos hlook hholds) fun _ => hend
    · rename_i hend
      have hsize := Bytes.size_slice data position k
      obtain ⟨hc, hsame, hmore⟩ := append_chunk hholds hnum hroot rfl hpos k
      rw [update_alone] at hmore
      exact .of_suits hu hc (.buffer (by omega) ((hsame l).trans hlook) hmore) (by simp)

theorem copyChunk_file {l : Location} {source : Path} {copy : OpenCopy} {k : Nat} (hk : 0 < k)
    (hb : Berth P u d init n dir) (hag : u.Agrees P t) (hnum : t.Numbered)
    (hs : Suits u t d l (.file source) (.file copy d)) :
    let r := copyChunk k t (.file copy d)
    Moved u t r.2.2 d l (.file source) r.1 r.2.1 := by
  cases hs with
  | @file _ s id target position hsource hid hpos hlook hholds =>
    have hroot : t.lookup (l ++ []) = some (.file target) := by rwa [List.append_nil]
    have hoff : ¬P s := fun hp => by rw [hb.bare hp] at hid; simp at hid
    unfold copyChunk
    rcases openCopy_step target (u.data id).modified
      (hag.data_eq hoff hid) hpos hk with ⟨hend, hstep⟩ | ⟨hne, hle, hstep⟩
    · simp only [hstep]
      refine .of_suits hb.sound (.refl _ _) (.file hsource hid hpos hlook hholds) fun _ j hj => ?_
      rw [← Handle.file.inj hj]
      exact hend
    · obtain ⟨hc, hsame, hmore⟩ := append_chunk hholds hnum hroot rfl hpos k
      rw [update_alone] at hmore
      obtain ⟨c, hc'⟩ := Nat.exists_eq_succ_of_ne_zero hne
      simp only [hstep, hc']
      rw [hc'] at hle hmore
      exact .of_suits hb.sound hc (.file hsource hid hle ((hsame l).trans hlook) hmore) (by simp)

/-! ## Turning to an entry -/

/-- The directories around an entry are copied before it. -/
theorem copied_around (hu : u.Sound) {s : Location} {made rest : List Pending} {e : Pending}
    (hsplit : agenda u s = made ++ e :: rest) {rel r : Location} {m : String}
    (hnames : e.names = rel ++ [m]) (hr : r <+: rel) :
    r ≠ e.names ∧ copied u s made r = some .directory ∧ (r ≠ [] → ⟨r, true⟩ ∈ made) := by
  have hlt : r ≠ e.names := by
    rintro rfl
    have hle := hr.length_le
    rw [hnames, List.length_append, List.length_singleton] at hle
    omega
  refine ⟨hlt, ?_⟩
  by_cases hnil : r = []
  · subst hnil
    exact ⟨copied_nil, fun h => absurd rfl h⟩
  · have hpre : r <+: e.names := hnames ▸ hr.trans (List.prefix_append rel [m])
    obtain ⟨hmade, hdir⟩ := holder_made hu hsplit hpre hnil hlt
    refine ⟨?_, fun _ => hmade⟩
    rw [copied, if_neg hnil, if_pos (List.mem_map.mpr ⟨_, hmade, rfl⟩),
      Tree.node?_of_directory hdir]

/-- The names of the next entry, the last one apart. -/
theorem names_of_next (hu : u.Sound) {s : Location} {made rest : List Pending} {e : Pending}
    (hsplit : agenda u s = made ++ e :: rest) :
    ∃ rel m, e.names = rel ++ [m] ∧ ∀ k ∈ rel ++ [m], IsName k := by
  have hmem : e ∈ agenda u s := hsplit ▸ List.mem_append_right _ List.mem_cons_self
  obtain ⟨rel, m, hnames⟩ :=
    (List.eq_nil_or_concat e.names).resolve_left ((mem_agenda hu).mp hmem).1
  rw [List.concat_eq_append] at hnames
  exact ⟨rel, m, hnames, fun k hk => isName_of_agenda hu hmem (hnames ▸ hk)⟩

/-- The next file of the source is read as it is on the ground. -/
theorem handle_of_next (hu : u.Sound) {s : Location} {made rest : List Pending} {e : Pending}
    (hsplit : agenda u s = made ++ e :: rest) (hk : u.Keeps t) {source : Path}
    (hsource : u.resolve .reach source = .ok s) (hdir : u.lookup s = some .directory) {id : Nat}
    {handle : Handle} (hlook : u.lookup (s ++ e.names) = some (.file id))
    (hread : t.openRead (source.descend e.names) = .ok handle) : handle = .file id := by
  obtain ⟨rel, m, hnames, hname⟩ := names_of_next hu hsplit
  rw [hnames] at hlook hread
  rw [← List.append_assoc] at hlook
  refine Tree.openRead_descend hk hsource hdir hname (fun r hr hne => ?_) hlook hread
  have hlt := (copied_around hu hsplit hnames hr).1
  have hpre : r <+: e.names := hnames ▸ hr.trans (List.prefix_append rel [m])
  exact (holder_made hu hsplit hpre hne hlt).2

/-- The directory `rel` of the staged copy stands, with those around it, and the path to it has
been walked along. -/
structure Reached (t : Tree) (d : Path) (init : List String) (n : String) (dir rel : Location) :
    Prop where
  endsIn : d.EndsIn init n
  seats : t.Seats (staged d) dir (n ++ ".mlc.partial")
  directories {r : Location} (hr : r <+: rel) : t.lookup (stageAt dir n ++ r) = some .directory
  fits (hne : rel ≠ []) : Fits d rel

namespace Reached

variable {rel : Location} {m : String}

/-- The directory around the next entry, where those around it have been made. -/
theorem of_next (hu : u.Sound) {s : Location} {made rest : List Pending} {e : Pending}
    (hsplit : agenda u s = made ++ e :: rest) (hnames : e.names = rel ++ [m])
    (hd : d.EndsIn init n) (hseat : t.Seats (staged d) dir (n ++ ".mlc.partial"))
    (hfit : ∀ x ∈ made, Fits d x.names) {f : Location → Option Node}
    (hholds : t.Holds (stageAt dir n) f) (hf : ∀ r, r <+: rel → f r = some .directory) :
    Reached t d init n dir rel where
  endsIn := hd
  seats := hseat
  directories hr := hholds.directory (hf _ hr)
  fits hne :=
    hfit ⟨rel, true⟩ ((copied_around hu hsplit hnames (List.prefix_refl rel)).2.2 hne)

theorem sizes (h : Reached t d init n dir rel) : ∀ k ∈ rel, k.utf8ByteSize ≤ maxName :=
  fun k hk => (h.fits (List.ne_nil_of_mem hk)).2 k hk

/-- What is named in such a directory is seated there, where the path can be walked along. -/
theorem seats_of_fits (h : Reached t d init n dir rel) (hname : ∀ k ∈ rel ++ [m], IsName k)
    (hfit : Fits d (rel ++ [m])) :
    t.Seats ((staged d).descend (rel ++ [m])) (stageAt dir n ++ rel) m := by
  have hlast : m ∈ rel ++ [m] := List.mem_append_right _ (List.mem_singleton_self m)
  exact h.seats.below h.endsIn.staged (fun _ => h.directories)
    (fun k hk => ⟨hname k (List.mem_append_left _ hk), h.sizes k hk⟩)
    (hname m hlast) (hfit.2 m hlast) hfit.1

/-- What is named in such a directory is seated there, if it is seated at all. -/
theorem seated (h : Reached t d init n dir rel) (hname : ∀ k ∈ rel ++ [m], IsName k)
    {dir' : Location} (hs : t.Seats ((staged d).descend (rel ++ [m])) dir' m) :
    dir' ++ [m] = stageAt dir n ++ (rel ++ [m]) ∧ Fits d (rel ++ [m]) := by
  have hfit : Fits d (rel ++ [m]) := by
    refine ⟨(Tree.holder_eq_ok.mp hs.holder_eq).1, fun k hk => ?_⟩
    rcases List.mem_append.mp hk with hk | hk
    · exact h.sizes k hk
    · rw [List.mem_singleton.mp hk]
      exact hs.size_le
  have hdir : dir' = stageAt dir n ++ rel :=
    Except.ok.inj (hs.holder_eq.symm.trans (h.seats_of_fits hname hfit).holder_eq)
  exact ⟨by rw [hdir, List.append_assoc], hfit⟩

/-- What is named in such a directory has its parents. -/
theorem hasParents (h : Reached t d init n dir rel) (hname : ∀ k ∈ rel ++ [m], IsName k) :
    t.HasParents ((staged d).descend (rel ++ [m])) := by
  have hend := h.endsIn.staged
  have hrel : ∀ k ∈ rel, IsName k := fun k hk => hname k (List.mem_append_left _ hk)
  have htarget := hend.descend hrel (hname m (List.mem_append_right _ (List.mem_singleton_self m)))
  intro q hq
  right
  rcases List.eq_nil_or_concat rel with hnil | ⟨rel', m', hrel'⟩
  · subst hnil
    rw [List.append_nil] at htarget
    rw [hend.parent?_child htarget] at hq
    rw [← Option.some.inj hq]
    have hroot := h.directories (List.prefix_refl [])
    rw [List.append_nil] at hroot
    exact h.seats.status_of_directory hroot
  · rw [List.concat_eq_append] at hrel'
    subst hrel'
    have hm' : IsName m' := hrel m' (List.mem_append_right _ (List.mem_singleton_self m'))
    have hparent := hend.descend (fun k hk => hrel k (List.mem_append_left _ hk)) hm'
    rw [← List.append_assoc (init ++ [n ++ ".mlc.partial"])] at htarget
    rw [hparent.parent?_child htarget] at hq
    rw [← Option.some.inj hq]
    have hlast : m' ∈ rel' ++ [m'] := List.mem_append_right _ (List.mem_singleton_self m')
    have hfit := h.fits (by simp)
    have hseat := h.seats.below hend
      (fun r hr => h.directories (hr.trans (List.prefix_append rel' [m'])))
      (fun k hk => ⟨hrel k (List.mem_append_left _ hk), h.sizes k (List.mem_append_left _ hk)⟩)
      hm' (hfit.2 m' hlast) hfit.1
    apply hseat.status_of_directory
    have hdir := h.directories (List.prefix_refl _)
    rwa [← List.append_assoc] at hdir

/-- The time of a file in such a directory can be set. -/
theorem setModified (h : Reached t d init n dir rel) (hname : ∀ k ∈ rel ++ [m], IsName k)
    (hfit : Fits d (rel ++ [m])) (hnum : t.Numbered) {f : Location → Option Node}
    (hholds : t.Holds (stageAt dir n) f) {data : FileData} {target : Nat}
    (hlook : t.lookup (stageAt dir n ++ (rel ++ [m])) = some (.file target))
    (hf : f (rel ++ [m]) = some (.file data)) (modified : Option Stamp) :
    t.orSame (t.setModified ((staged d).descend (rel ++ [m])) modified) =
        t.setData target ⟨data.bytes, modified⟩ ∧
      (t.setData target ⟨data.bytes, modified⟩).Holds (stageAt dir n)
        (Function.update f (rel ++ [m]) (some (.file ⟨data.bytes, modified⟩))) := by
  have hdata := hholds.file hlook
  rw [hf] at hdata
  have hset := (h.seats_of_fits hname hfit).setModified_file (s := modified)
    (by rw [List.append_assoc]; exact hlook)
  rw [hset, ← Node.file.inj (Option.some.inj hdata)]
  exact ⟨rfl, hholds.setData hnum hlook _⟩

end Reached

/-- The entry `e` is next, and what comes before it in the listing has been copied. -/
structure Next (u t : Tree) (d : Path) (l s : Location) (made : List Pending) (e : Pending)
    (rest : List Pending) : Prop where
  split : agenda u s = made ++ e :: rest
  fits {x : Pending} (h : x ∈ made) : Fits d x.names
  holds : t.Holds l (copied u s made)

namespace Next

variable {s : Location} {made rest : List Pending} {e : Pending}

theorem mem (h : Next u t d (stageAt dir n) s made e rest) : e ∈ agenda u s := by
  rw [h.split]
  exact List.mem_append_right _ List.mem_cons_self

theorem vacant (h : Next u t d (stageAt dir n) s made e rest) (hu : u.Sound) :
    t.lookup (stageAt dir n ++ e.names) = none := by
  apply h.holds.vacant
  rw [copied, if_neg ((mem_agenda hu).mp h.mem).1, if_neg (not_made hu h.split)]

/-- The directory around the next entry stands in the staged copy. -/
theorem reached (h : Next u t d (stageAt dir n) s made e rest) (hb : Berth P u d init n dir)
    (hag : u.Agrees P t) {rel : Location} {m : String} (hnames : e.names = rel ++ [m]) :
    Reached t d init n dir rel :=
  .of_next hb.sound h.split hnames hb.endsIn (hb.seats.mono (hag.keeps fun _ => hb.bare))
    (fun _ => h.fits) h.holds fun _ hr => (copied_around hb.sound h.split hnames hr).2.1

/-- The path to the next entry of the staged copy ends in a name at which nothing stands, in an
existing directory. -/
theorem target (h : Next u t d (stageAt dir n) s made e rest) (hb : Berth P u d init n dir)
    (hag : u.Agrees P t) :
    ∃ init' m, ((staged d).descend e.names).EndsIn init' m ∧
      t.HasParents ((staged d).descend e.names) ∧
      (∀ x, t.linkStatus ((staged d).descend e.names) ≠ .ok x) ∧
      ∀ dir', t.Seats ((staged d).descend e.names) dir' m →
        dir' ++ [m] = stageAt dir n ++ e.names ∧ Fits d e.names := by
  obtain ⟨rel, m, hnames, hname⟩ := names_of_next hb.sound h.split
  have htarget := hb.endsIn.staged.descend (fun k hk => hname k (List.mem_append_left _ hk))
    (hname m (List.mem_append_right _ (List.mem_singleton_self m)))
  have hreached := h.reached hb hag hnames
  have hvacant := h.vacant hb.sound
  rw [hnames] at hvacant ⊢
  refine ⟨_, m, htarget, hreached.hasParents hname, fun x hx => ?_,
    fun dir' hs => hreached.seated hname hs⟩
  obtain ⟨dir', hs⟩ := Tree.seats_of_linkStatus htarget hx
  rw [hs.linkStatus_eq_ok, (hreached.seated hname hs).1, Tree.node?_eq_none.mpr hvacant] at hx
  simp at hx

end Next

/-- Turning to the next entry either fails and changes nothing, or makes the directory, or creates
the file that is to be copied into. -/
theorem openEntry_cases {source : Path} {s : Location} {made rest : List Pending} {e : Pending}
    (hx : Next u t d (stageAt dir n) s made e rest) (hb : Berth P u d init n dir)
    (hag : u.Agrees P t) (hsource : u.resolve .reach source = .ok s)
    (hdir : u.lookup s = some .directory) :
    (∃ f, openEntry t source d e = (.error f, t)) ∨
      (u.lookup (s ++ e.names) = some .directory ∧ Fits d e.names ∧
        openEntry t source d e = (.ok none, t.insert (stageAt dir n ++ e.names) .directory)) ∨
      ∃ id, u.lookup (s ++ e.names) = some (.file id) ∧ Fits d e.names ∧
        openEntry t source d e =
          (.ok (some (⟨.file id, t.files.size, 0, (u.data id).modified⟩,
            (staged d).descend e.names)), (t.addFile (stageAt dir n ++ e.names)).2) := by
  obtain ⟨init', m, htarget, hparents, hfree, hseat⟩ := hx.target hb hag
  unfold openEntry
  rcases ((mem_agenda hb.sound).mp hx.mem).2 with ⟨hkind, hlook⟩ | ⟨hkind, id, hlook⟩
  · simp only [hkind, if_true]
    rcases Tree.makeDirectories_cases htarget hparents hfree with ⟨dir', hs, hmake⟩ | ⟨f, hmake⟩
    · obtain ⟨hat, hfit⟩ := hseat dir' hs
      rw [hat] at hmake
      exact .inr (.inl ⟨hlook, hfit, by simp only [hmake]⟩)
    · exact .inl ⟨_, by simp only [hmake]; rfl⟩
  · simp only [hkind, Bool.false_eq_true, if_false]
    have hdata : t.data id = u.data id := by
      refine hag.data_eq (fun hp => ?_) hlook
      rw [hb.bare hp] at hlook
      simp at hlook
    cases hread : t.openRead (source.descend e.names) with
    | error f => exact .inl ⟨_, rfl⟩
    | ok handle =>
      have hhandle :=
        handle_of_next hb.sound hx.split (hag.keeps fun _ => hb.bare) hsource hdir hlook
        hread
      subst hhandle
      simp only [hparents.makeParents_eq, startCopy]
      cases hcreate : t.create ((staged d).descend e.names) with
      | error f => exact .inl ⟨_, rfl⟩
      | ok made' =>
        obtain ⟨dir', hs⟩ := Tree.seats_of_create htarget hcreate
        obtain ⟨hat, hfit⟩ := hseat dir' hs
        rw [hs.create_vacant (hs.lookup_eq_none hfree), hat] at hcreate
        refine .inr (.inr ⟨id, hlook, hfit, ?_⟩)
        rw [← Except.ok.inj hcreate]
        simp only [handleModified, hdata]
        rfl

/-- What going through the entries leaves: either everything is copied, or a file has been opened,
or a step failed; the staged copy is still a directory. -/
structure Turned (u t t' : Tree) (d : Path) (l : Location) (source : Path)
    (r : Except CopyFailure (Option (OpenCopy × Path))) (rest : List Pending) : Prop where
  changes : t.Changes (l <+: ·) t'
  directory : t'.lookup l = some .directory
  complete (h : r = .ok none) :
    rest = [] ∧ Suits u t' d l (.directory source) (.directory source [] none d)
  opened {copy : OpenCopy} {target : Path} (h : r = .ok (some (copy, target))) :
    Suits u t' d l (.directory source) (.directory source rest (some (copy, target)) d)

theorem openNext_turned {source : Path} {s : Location} (hb : Berth P u d init n dir)
    (hsource : u.resolve .reach source = .ok s) (hdir : u.lookup s = some .directory)
    {pending made : List Pending} (hag : u.Agrees P t) (hnum : t.Numbered)
    (hsplit : agenda u s = made ++ pending) (hfit : ∀ x ∈ made, Fits d x.names)
    (hholds : t.Holds (stageAt dir n) (copied u s made)) :
    let r := openNext t source d pending
    Turned u t r.2.2 d (stageAt dir n) source r.1 r.2.1 := by
  have hroot : ∀ {t₁ : Tree} {f}, t₁.Holds (stageAt dir n) f → f [] = some .directory →
      t₁.lookup (stageAt dir n) = some .directory := by
    intro t₁ f hf hnil
    have hlook := hf.directory hnil
    rwa [List.append_nil] at hlook
  induction pending generalizing t made with
  | nil =>
    refine ⟨.refl _ _, hroot hholds copied_nil, fun _ => ⟨rfl, ?_⟩,
      fun h => by simp [openNext] at h⟩
    exact .between hsource hdir hsplit hfit hholds
  | cons e rest ih =>
    have hnext : Next u t d (stageAt dir n) s made e rest := ⟨hsplit, fun h => hfit _ h, hholds⟩
    have hne := ((mem_agenda hb.sound).mp hnext.mem).1
    have hl : stageAt dir n ++ e.names ≠ [] := by simp [hne]
    have hp : stageAt dir n <+: stageAt dir n ++ e.names := List.prefix_append _ _
    have hfit' : Fits d e.names → ∀ x ∈ made ++ [e], Fits d x.names := fun he =>
      List.forall_mem_append.mpr ⟨hfit, List.forall_mem_singleton.mpr he⟩
    unfold openNext
    rcases openEntry_cases hnext hb hag hsource hdir with
      ⟨f, hopen⟩ | ⟨hlook, he, hopen⟩ | ⟨id, hlook, he, hopen⟩
    · simp only [hopen]
      exact ⟨.refl _ _, hroot hholds copied_nil, fun h => by simp at h, fun h => by simp at h⟩
    · simp only [hopen]
      have hc : t.Changes (stageAt dir n <+: ·) (t.insert (stageAt dir n ++ e.names) .directory) :=
        Tree.changes_insert_directory hl hp
      have hmade := hholds.insert hl
      rw [← Tree.node?_of_directory hlook, update_copied hne] at hmade
      have hrest := @ih _ (made ++ [e])
        (hag.trans (hc.toAgrees.mono fun _ => hb.covers)) (hc.numbered hnum)
        (by rw [hsplit, List.append_assoc, List.singleton_append]) (hfit' he) hmade
      exact ⟨hc.trans hrest.changes, hrest.directory, hrest.complete, hrest.opened⟩
    · simp only [hopen]
      have hc : t.Changes (stageAt dir n <+: ·) (t.addFile (stageAt dir n ++ e.names)).2 :=
        Tree.changes_addFile hl hp
      have hmade := hholds.addFile hnum hl
      refine ⟨hc, hroot hmade ?_, fun h => by simp at h, fun h => ?_⟩
      · rw [Function.update_of_ne hne.symm, copied_nil]
      · simp only [Except.ok.injEq, Option.some.injEq, Prod.mk.injEq] at h
        rw [← h.1, ← h.2]
        refine .within hsource hdir hsplit (hfit' he) hlook (Nat.zero_le _) ?_ ?_
        · rw [Tree.lookup_addFile t _ hl, if_pos rfl]
        · rwa [Bytes.slice_zero]

/-- At the end of a file its copy takes over when the file was modified. -/
theorem copyCurrent_moved {source target : Path} {copy : OpenCopy} {pending : List Pending}
    {k : Nat} (hk : 0 < k) (hb : Berth P u d init n dir) (hag : u.Agrees P t)
    (hnum : t.Numbered)
    (hs : Suits u t d (stageAt dir n) (.directory source)
      (.directory source pending (some (copy, target)) d)) :
    let r := copyCurrent k t source pending copy target d
    Moved u t r.2.2 d (stageAt dir n) (.directory source) r.1 r.2.1 := by
  cases hs with
  | @within _ s made _ e id target position hsource hdir hsplit hfit hid hpos hlook hholds =>
    have hmem : e ∈ agenda u s := hsplit ▸ List.mem_append_right _ List.mem_cons_self
    have hne := ((mem_agenda hb.sound).mp hmem).1
    have hoff : ¬P (s ++ e.names) := fun hp => by rw [hb.bare hp] at hid; simp at hid
    unfold copyCurrent
    rcases openCopy_step target (u.data id).modified
      (hag.data_eq hoff hid) hpos hk with ⟨hend, hstep⟩ | ⟨hnz, hle, hstep⟩
    · simp only [hstep]
      rw [Bytes.slice_of_size_le hend] at hholds
      obtain ⟨rel, m, hnames, hname⟩ := names_of_next hb.sound hsplit
      have hfits := hfit e (List.mem_append_right _ (List.mem_singleton_self e))
      have hreached : Reached t d init n dir rel :=
        .of_next hb.sound hsplit hnames hb.endsIn (hb.seats.mono (hag.keeps fun _ => hb.bare))
          (fun x hx => hfit x (List.mem_append_left _ hx)) hholds fun r hr => by
            obtain ⟨hlt, hcopied, -⟩ := copied_around hb.sound hsplit hnames hr
            exact (Function.update_of_ne hlt _ _).trans hcopied
      have htarget := hlook
      rw [hnames] at hfits htarget
      obtain ⟨hset, hmade⟩ := hreached.setModified hname hfits hnum hholds htarget
        (by rw [← hnames, Function.update_self]) (u.data id).modified
      rw [← hnames] at hset hmade
      rw [hset]
      rw [Function.update_idem, ← Tree.node?_of_file hid, update_copied hne] at hmade
      have hc : t.Changes (stageAt dir n <+: ·)
          (t.setData target ⟨(u.data id).bytes, (u.data id).modified⟩) :=
        Tree.changes_setData _ fun m hm => hholds.sole hlook hm ▸ List.prefix_append _ _
      exact .of_suits hb.sound hc (.between hsource hdir
        (by rw [hsplit, List.append_assoc, List.singleton_append]) hfit hmade) (by simp)
    · obtain ⟨hc, hsame, hmore⟩ := append_chunk hholds hnum hlook
        (Function.update_self _ _ _) hpos k
      rw [Function.update_idem] at hmore
      obtain ⟨c, hc'⟩ := Nat.exists_eq_succ_of_ne_zero hnz
      simp only [hstep, hc']
      rw [hc'] at hle hmore
      exact .of_suits hb.sound hc (.within hsource hdir hsplit hfit hid hle
        ((hsame _).trans hlook) hmore) (by simp)

/-- Whatever is copied, a step of its session leaves the part that was moved so far. -/
theorem copyChunk_moved {p : Payload} {s : Session} {k : Nat} (hk : 0 < k)
    (hb : Berth P u d init n dir) (hag : u.Agrees P t) (hnum : t.Numbered)
    (hs : Suits u t d (stageAt dir n) p s) :
    let r := copyChunk k t s
    Moved u t r.2.2 d (stageAt dir n) p r.1 r.2.1 := by
  cases hs with
  | buffer hpos hlook hholds => exact copyChunk_buffer hb.sound hnum (.buffer hpos hlook hholds)
  | file hsource hid hpos hlook hholds =>
    exact copyChunk_file hk hb hag hnum (.file hsource hid hpos hlook hholds)
  | within hsource hdir hsplit hfit hid hpos hlook hholds =>
    exact copyCurrent_moved hk hb hag hnum
      (.within hsource hdir hsplit hfit hid hpos hlook hholds)
  | @between source s made pending hsource hdir hsplit hfit hholds =>
    have hturned := openNext_turned hb hsource hdir hag hnum hsplit hfit hholds
    cases hopen : openNext t source d pending with
    | mk r x =>
      obtain ⟨rest, t₁⟩ := x
      rw [hopen] at hturned
      cases r with
      | error f =>
        simp only [copyChunk, hopen]
        exact ⟨hturned.changes, .inl hturned.directory, rfl, fun h => by simp at h,
          fun h => by simp at h⟩
      | ok current =>
        cases current with
        | none =>
          simp only [copyChunk, hopen]
          obtain ⟨hrest, hsuits⟩ := hturned.complete rfl
          simp only at hrest hsuits
          subst hrest
          exact .of_suits hb.sound hturned.changes hsuits fun _ => ⟨rfl, rfl⟩
        | some current =>
          simp only [copyChunk, hopen]
          have hmoved := copyCurrent_moved hk hb
            (hag.trans (hturned.changes.toAgrees.mono fun _ => hb.covers))
            (hturned.changes.numbered hnum) (hturned.opened rfl)
          exact ⟨hturned.changes.trans hmoved.changes, hmoved.clearable, hmoved.destination_eq,
            hmoved.suits, hmoved.exhausted⟩

end Steps

end Session

end Haulage
