import Haulage.Copy.Session
import Mathlib.Data.List.Basic
import Mathlib.Data.List.Induction
import Mathlib.Data.List.TakeWhile

/-!
# Texts and steps of paths

A path is a text, and a walk takes the stretches between its separators. The
paths that a transfer works on are made from the path of its destination: the
staged copy has a longer last name, and the entries of a staged directory lie
below it. `Path.EndsIn` says what the steps of such a path are, and one lemma
for each way to make a path says that it ends in a name again.
-/

namespace Haulage.Disk

/-- Can a step of this name lead to an entry of its own? -/
def IsName (n : String) : Prop := n ≠ "" ∧ n ≠ "." ∧ n ≠ ".." ∧ '/' ∉ n.toList

instance (n : String) : Decidable (IsName n) := inferInstanceAs (Decidable (_ ∧ _))

theorem IsName.proper {n : String} (h : IsName n) : Path.proper n = true := by
  simp [Path.proper, h.1, h.2.1]

/-! ## Segments -/

theorem pieces_eq_splitOn (cs : List Char) : pieces cs = cs.splitOn '/' := by
  induction cs with
  | nil => rw [List.splitOn_nil]; rfl
  | cons c cs ih =>
    rw [List.splitOn_cons_eq_if_modifyHead, pieces, ih]
    by_cases hc : c = '/'
    · simp [hc]
    · have hne := pieces_ne_nil cs
      rw [ih] at hne
      simp only [hc, if_false, beq_iff_eq]
      cases hw : cs.splitOn '/' with
      | nil => exact absurd hw hne
      | cons w ws => rfl

theorem not_mem_of_mem_pieces {cs w : List Char} (h : w ∈ pieces cs) : '/' ∉ w := by
  induction cs generalizing w with
  | nil => simp [pieces] at h; simp [h]
  | cons c cs ih =>
    unfold pieces at h
    split at h
    · rcases List.mem_cons.mp h with rfl | h
      · simp
      · exact ih h
    · rename_i hc
      split at h
      · rw [List.mem_singleton.mp h]
        simpa using Ne.symm hc
      · rename_i v vs hv
        rcases List.mem_cons.mp h with rfl | h
        · have := ih (hv ▸ List.mem_cons_self)
          simp [this, Ne.symm hc]
        · exact ih (hv ▸ List.mem_cons_of_mem _ h)

namespace Path

theorem not_mem_of_mem_segments {p : Path} {s : String} (h : s ∈ p.segments) :
    '/' ∉ s.toList := by
  obtain ⟨w, hw, rfl⟩ := List.mem_map.mp h
  rw [String.toList_ofList]
  exact not_mem_of_mem_pieces hw

/-- The segments of a path determine it. -/
theorem ofSegments_segments (p : Path) : ofSegments p.segments = p := by
  have h : (String.intercalate "/" p.segments).toList = p.text.toList := by
    rw [String.toList_intercalate, segments, List.map_map]
    have hid : (String.toList ∘ String.ofList) = id := by
      funext cs
      exact String.toList_ofList
    rw [hid, List.map_id, pieces_eq_splitOn]
    exact List.intercalate_splitOn '/'
  rw [ofSegments, String.toList_inj.mp h]

/-- Segments without separators can be read off the path that is made of them. -/
theorem segments_ofSegments {ss : List String} (hne : ss ≠ [])
    (hs : ∀ s ∈ ss, '/' ∉ s.toList) : (ofSegments ss).segments = ss := by
  rw [segments, ofSegments, String.toList_intercalate, pieces_eq_splitOn]
  have hsplit : (List.intercalate ['/'] (ss.map String.toList)).splitOn '/' =
      ss.map String.toList :=
    List.splitOn_intercalate '/' (by simpa using hs) (by simpa using hne)
  have hslash : "/".toList = ['/'] := rfl
  rw [hslash, hsplit, List.map_map]
  have hid : (String.ofList ∘ String.toList) = id := by
    funext s
    exact String.ofList_toList
  rw [hid, List.map_id]

theorem segments_ofSegments_of_subset {p : Path} {ss : List String} (hne : ss ≠ [])
    (hs : ss ⊆ p.segments) : (ofSegments ss).segments = ss :=
  segments_ofSegments hne fun _ h => not_mem_of_mem_segments (hs h)

/-- What a separator joins keeps its segments. -/
theorem segments_slash (a b : String) :
    segments ⟨a ++ "/" ++ b⟩ = segments ⟨a⟩ ++ segments ⟨b⟩ := by
  have hslash : "/".toList = ['/'] := rfl
  simp only [segments, String.toList_append, hslash, List.append_assoc, List.singleton_append]
  rw [pieces_eq_splitOn, pieces_eq_splitOn, pieces_eq_splitOn, List.splitOn_append_cons_self,
    List.map_append]

theorem isAbsolute_iff (p : Path) :
    p.isAbsolute = true ↔ ∃ rest, rest ≠ [] ∧ p.segments = "" :: rest := by
  unfold isAbsolute segments
  cases p.text.toList with
  | nil => simp [pieces]
  | cons c cs =>
    by_cases hc : c = '/'
    · subst hc
      have hne : (pieces cs).map String.ofList ≠ [] := by simpa using pieces_ne_nil cs
      exact iff_of_true (by simp) ⟨_, hne, rfl⟩
    · refine iff_of_false (by simpa using hc) ?_
      rintro ⟨rest, -, hseg⟩
      rw [pieces, if_neg hc] at hseg
      have hempty : String.ofList [] = "" := rfl
      cases hw : pieces cs with
      | nil => exact pieces_ne_nil cs hw
      | cons w ws =>
        rw [hw, List.map_cons, ← hempty] at hseg
        exact List.cons_ne_nil c w (String.ofList_injective (List.head_eq_of_cons_eq hseg))

/-- Whether a path starts at the root shows in the segments before one that is not empty. -/
theorem isAbsolute_of_segments {p : Path} {w rest : List String} {y : String}
    (h : p.segments = w ++ y :: rest) (hy : y ≠ "") : p.isAbsolute = (w.head? == some "") := by
  rw [Bool.eq_iff_iff, isAbsolute_iff, h]
  cases w with
  | nil => simp [hy]
  | cons s w => simp

/-- How many segments in front of a path are never gone up: an empty one, or a dot. -/
def anchor (init : List String) : Nat :=
  if init.head? = some "" ∨ init.head? = some "." then 1 else 0

theorem anchor_le (init : List String) : anchor init ≤ init.length := by
  cases init with
  | nil => simp [anchor]
  | cons s init => unfold anchor; split <;> simp

theorem drop_anchor (init : List String) (n : String) :
    (init ++ [n]).drop (anchor init) = init.drop (anchor init) ++ [n] :=
  List.drop_append_of_le_length (anchor_le init)

/-- The parent of a path that has the segments `init` before its last name. -/
def parentOf (init : List String) : Option Path :=
  match ((init.drop (anchor init)).reverse.dropWhile fun s => !proper s).reverse with
  | [] => if init.head? = some "" then some ⟨"/"⟩ else some (ofSegments (init.take (anchor init)))
  | body => some (ofSegments (init.take (anchor init) ++ body))

/-- The text of a run of names does not begin with a separator. -/
theorem isAbsolute_ofSegments {l : Location} (hl : l ≠ []) (hn : ∀ m ∈ l, IsName m) :
    (ofSegments l).isAbsolute = false := by
  rw [Bool.eq_false_iff, Ne, isAbsolute_iff, segments_ofSegments hl fun m hm => (hn m hm).2.2.2]
  rintro ⟨rest, -, rfl⟩
  exact (hn "" List.mem_cons_self).1 rfl

theorem text_ne_of_segments {p : Path} (h : p.segments ≠ [""]) : p.text ≠ "" :=
  fun htext => h (by rw [segments, htext]; rfl)

theorem text_ne_of_mem_segments {p : Path} {s : String} (h : s ∈ p.segments) (hs : s ≠ "") :
    p.text ≠ "" :=
  text_ne_of_segments fun hseg => hs (List.mem_singleton.mp (hseg ▸ h))

/-- A path that ends with a separator has an empty last segment. -/
theorem exists_of_getLast?_slash {p : Path} (h : p.text.toList.getLast? = some '/') :
    ∃ a : String, p.text = a ++ "/" ∧ p.segments = segments ⟨a⟩ ++ [""] := by
  obtain ⟨cs, hcs⟩ := List.getLast?_eq_some_iff.mp h
  have hslash : "/".toList = ['/'] := rfl
  have htext : p.text = String.ofList cs ++ "/" := by
    apply String.toList_inj.mp
    rw [String.toList_append, String.toList_ofList, hcs, hslash]
  have hempty : segments ⟨""⟩ = [""] := rfl
  have hseg := segments_slash (String.ofList cs) ""
  rw [hempty, String.append_empty, ← htext] at hseg
  exact ⟨_, htext, hseg⟩

/-- What is taken from a path that does not end with a separator is set apart by one. -/
theorem join_eq_of_segments {p q : Path} {w : List String} {y : String}
    (h : p.segments = w ++ [y]) (hy : y ≠ "") (hq : q.isAbsolute = false) :
    p.join q = ⟨p.text ++ "/" ++ q.text⟩ := by
  have hlast : p.text.toList.getLast? ≠ some '/' := by
    intro hslash
    obtain ⟨a, -, hseg⟩ := exists_of_getLast?_slash hslash
    rw [h] at hseg
    exact hy (List.singleton_inj.mp (List.append_inj_right' hseg rfl))
  have htext : p.text ≠ "" := text_ne_of_mem_segments (by simp [h]) hy
  simp [join, hq, htext, hlast]

theorem segments_join {p q : Path} {w : List String} {y : String} (h : p.segments = w ++ [y])
    (hy : y ≠ "") (hq : q.isAbsolute = false) : (p.join q).segments = w ++ y :: q.segments := by
  have hp : segments ⟨p.text⟩ = w ++ [y] := h
  have hqseg : segments ⟨q.text⟩ = q.segments := rfl
  rw [join_eq_of_segments h hy hq, segments_slash, hp, hqseg, List.append_assoc,
    List.singleton_append]

/-- A walk along a path below `p` takes the steps of `p`, and then the names. -/
theorem segments_descend {p : Path} (hp : p.text ≠ "") {l : Location} (hl : l ≠ [])
    (hn : ∀ m ∈ l, IsName m) :
    ∃ init, (p.descend l).segments = init ++ l ∧ p.names = init.filter (· ≠ "") ∧
      (p.descend l).isAbsolute = p.isAbsolute := by
  have hseg := segments_ofSegments hl fun m hm => (hn m hm).2.2.2
  have hhead : ∀ s : String, isAbsolute ⟨p.text ++ s⟩ = p.isAbsolute := by
    intro s
    have hcons : p.text.toList ≠ [] := fun h => hp (String.toList_eq_nil_iff.mp h)
    rw [isAbsolute, isAbsolute, String.toList_append, List.head?_append_of_ne_nil _ hcons]
  unfold descend join
  rw [isAbsolute_ofSegments hl hn]
  simp only [Bool.false_eq_true, if_false, hp, decide_false, Bool.false_or]
  by_cases hlast : p.text.toList.getLast? = some '/'
  · obtain ⟨a, htext, hinit⟩ := exists_of_getLast?_slash hlast
    rw [if_pos (by simp [hlast])]
    refine ⟨segments ⟨a⟩, ?_, ?_, hhead _⟩
    · rw [htext, segments_slash]
      exact congrArg _ hseg
    · simp [names, hinit]
  · rw [if_neg (by simp [hlast])]
    refine ⟨p.segments, ?_, rfl, ?_⟩
    · rw [segments_slash]
      exact congrArg _ hseg
    · rw [String.append_assoc]
      exact hhead _

theorem steps_descend {p : Path} (hp : p.text ≠ "") {l : Location} (hl : l ≠ [])
    (hn : ∀ m ∈ l, IsName m) :
    (p.descend l).steps = p.names ++ l ∧ (p.descend l).isAbsolute = p.isAbsolute := by
  obtain ⟨init, hseg, hnames, habs⟩ := segments_descend hp hl hn
  obtain ⟨rel, m, rfl⟩ := (List.eq_nil_or_concat l).resolve_left hl
  rw [List.concat_eq_append] at *
  have hm : IsName m := hn m (List.mem_append_right _ (List.mem_singleton_self m))
  have hfilter : (rel ++ [m]).filter (· ≠ "") = rel ++ [m] :=
    List.filter_eq_self.mpr fun i hi => by simp [(hn i hi).1]
  have hslash : (p.descend (rel ++ [m])).endsWithSlash = false := by
    simp [endsWithSlash, hseg, hm.1]
  refine ⟨?_, habs⟩
  rw [steps, hslash, if_neg (by simp), names, hseg, List.filter_append, hfilter, hnames]

/-- What is appended to the text of a path continues its last segment. -/
theorem segments_append {p : Path} {init : List String} {x s : String}
    (h : p.segments = init ++ [x]) (hs : '/' ∉ s.toList) :
    (p.append s).segments = init ++ [x ++ s] := by
  have htext : p.append s = ofSegments (init ++ [x ++ s]) := by
    have hp : p = ofSegments (init ++ [x]) := by rw [← h, ofSegments_segments]
    have hcat : String.intercalate "/" (init ++ [x]) ++ s =
        String.intercalate "/" (init ++ [x ++ s]) := by
      apply String.toList_inj.mp
      rw [String.toList_append, String.toList_intercalate, String.toList_intercalate]
      simp only [List.map_append, List.map_cons, List.map_nil, String.toList_append]
      induction init.map String.toList with
      | nil => simp
      | cons w ws ih =>
        cases ws with
        | nil => simp [List.intercalate]
        | cons v vs =>
          simp only [List.intercalate, List.cons_append, List.intersperse_cons_cons,
            List.flatten_cons, List.append_assoc] at ih ⊢
          rw [ih]
    rw [hp, Path.append, ofSegments, ofSegments, hcat]
  have hmem : ∀ t ∈ init ++ [x], '/' ∉ t.toList := fun t ht =>
    not_mem_of_mem_segments (h ▸ ht)
  rw [htext]
  apply segments_ofSegments (by simp)
  intro t ht
  rcases List.mem_append.mp ht with ht | ht
  · exact hmem t (List.mem_append_left _ ht)
  · rw [List.mem_singleton.mp ht, String.toList_append, List.mem_append]
    exact not_or.mpr ⟨hmem x (by simp), hs⟩

/-- Every path has a last segment, though it may be empty. -/
theorem exists_last_segment (p : Path) : ∃ init x, p.segments = init ++ [x] := by
  have hne : p.segments ≠ [] := by simpa [segments] using pieces_ne_nil p.text.toList
  exact ⟨_, _, (List.dropLast_append_getLast hne).symm⟩

/-! ## Idle segments -/

theorem ne_of_proper {s : String} (h : proper s = true) : s ≠ "" ∧ s ≠ "." := by
  simpa [proper] using h

/-- A segment that is empty or a dot takes a walk nowhere. -/
abbrev Idle (s : String) : Prop := proper s = false

theorem idle_iff {s : String} : Idle s ↔ s = "" ∨ s = "." := by
  simp only [Idle, proper, ne_eq, Bool.and_eq_false_iff, decide_eq_false_iff_not, not_not]

/-- Segments are idle, or one of them is the last that is not. -/
theorem idle_or_split (ss : List String) : (∀ s ∈ ss, Idle s) ∨
    ∃ w y idle, ss = w ++ y :: idle ∧ proper y = true ∧ ∀ s ∈ idle, Idle s := by
  induction ss using List.reverseRecOn with
  | nil => exact .inl (by simp)
  | append_singleton ss x ih =>
    by_cases hx : proper x = true
    · exact .inr ⟨ss, x, [], rfl, hx, by simp⟩
    · have hidle : Idle x := by simpa using hx
      rcases ih with hall | ⟨w, y, idle, rfl, hy, hall⟩
      · exact .inl fun s hs => (List.mem_append.mp hs).elim (hall s) fun h => by
          rwa [List.mem_singleton.mp h]
      · refine .inr ⟨w, y, idle ++ [x], by simp, hy, fun s hs => ?_⟩
        exact (List.mem_append.mp hs).elim (hall s) fun h => by rwa [List.mem_singleton.mp h]

theorem dropWhile_idle {w idle : List String} {y : String} (hy : proper y = true)
    (hidle : ∀ s ∈ idle, Idle s) :
    (w ++ y :: idle).reverse.dropWhile (fun s => !proper s) = y :: w.reverse := by
  rw [List.reverse_append, List.reverse_cons, List.append_assoc, List.dropWhile_append_of_pos]
  · simp [hy]
  · simpa [Idle] using hidle

theorem anchor_append {w idle : List String} {y : String} (hy : proper y = true) :
    anchor (w ++ y :: idle) = anchor w := by
  have hne := ne_of_proper hy
  cases w <;> simp [anchor, hne]

/-- The parent of a path is known from the segments before its last name. -/
theorem parent?_eq_parentOf {p : Path} {w idle : List String} {y : String}
    (h : p.segments = w ++ y :: idle) (hy : proper y = true) (hidle : ∀ s ∈ idle, Idle s) :
    p.parent? = parentOf w := by
  have hne := ne_of_proper hy
  have habs := isAbsolute_of_segments h hne.1
  have hhere : p.startsHere = (w.head? == some ".") := by
    unfold startsHere
    rw [h]
    cases w with
    | nil => simp [hne]
    | cons s w => simp [beq_eq_decide]
  have hanchor : (if p.isAbsolute || p.startsHere then 1 else 0) = anchor w := by
    simp [habs, hhere, anchor]
  unfold parent?
  dsimp only
  rw [hanchor, h, List.drop_append_of_le_length (anchor_le w),
    List.take_append_of_le_length (anchor_le w), dropWhile_idle hy hidle]
  simp only [habs, beq_iff_eq]
  rfl

/-- The parent that is known from some segments ends with the last name among them. -/
theorem parentOf_split {w idle : List String} {y : String} (hy : proper y = true)
    (hidle : ∀ s ∈ idle, Idle s) :
    parentOf (w ++ y :: idle) = some (ofSegments (w ++ [y])) := by
  have hle := anchor_le w
  have hrev : ((w.drop (anchor w) ++ y :: idle).reverse.dropWhile fun s => !proper s).reverse =
      w.drop (anchor w) ++ [y] := by
    rw [dropWhile_idle hy hidle, List.reverse_cons, List.reverse_reverse]
  have hall : w.take (anchor w) ++ (w.drop (anchor w) ++ [y]) = w ++ [y] := by
    rw [← List.append_assoc, List.take_append_drop]
  unfold parentOf
  rw [anchor_append hy, List.drop_append_of_le_length hle, List.take_append_of_le_length hle, hrev]
  generalize hbody : w.drop (anchor w) ++ [y] = body at hall
  cases body with
  | nil => simp at hbody
  | cons b bs => simp only [hall]

/-- What stands idle before the first name says where a path starts. -/
theorem parentOf_of_idle {ss : List String} (h : ∀ s ∈ ss, Idle s) :
    parentOf ss = some (match ss.head? with
      | none => ⟨""⟩
      | some s => if s = "" then ⟨"/"⟩ else ⟨"."⟩) := by
  have hdrop : ((ss.drop (anchor ss)).reverse.dropWhile fun s => !proper s) = [] := by
    rw [List.dropWhile_eq_nil_iff]
    intro s hs
    simpa [Idle] using h s (List.mem_of_mem_drop (List.mem_reverse.mp hs))
  unfold parentOf
  rw [hdrop]
  cases ss with
  | nil => rfl
  | cons s ss =>
    rcases idle_iff.mp (h s List.mem_cons_self) with rfl | rfl
    · simp
    · simp [anchor, ofSegments]

/-- The parent that is known from idle segments is the root, the working directory or the empty
path: it names no entry, and there is nothing to be made above it. -/
theorem parentOf_idle {ss : List String} (h : ∀ s ∈ ss, Idle s) :
    ∃ p, parentOf ss = some p ∧ (∀ q, p.parent? = some q → q.text = "") ∧
      ∀ n, Tree.lastStep p ≠ .name n := by
  have hempty : (⟨""⟩ : Path).parent? = none ∧ Tree.lastStep ⟨""⟩ = .none := by decide +kernel
  have hroot : (⟨"/"⟩ : Path).parent? = none ∧ Tree.lastStep ⟨"/"⟩ = .none := by decide +kernel
  have hhere : (⟨"."⟩ : Path).parent? = some ⟨""⟩ ∧ Tree.lastStep ⟨"."⟩ = .here := by
    decide +kernel
  refine ⟨_, parentOf_of_idle h, ?_⟩
  cases ss with
  | nil => simp [hempty.1, hempty.2]
  | cons s ss =>
    rcases idle_iff.mp (h s List.mem_cons_self) with rfl | rfl
    · simp [hroot.1, hroot.2]
    · simp [hhere.1, hhere.2]

/-! ## Paths that end in a name -/

/-- The last segment of `p` is the name `n`, and the ones before it are `init`. -/
structure EndsIn (p : Path) (init : List String) (n : String) : Prop where
  segments_eq : p.segments = init ++ [n]
  isName : IsName n

/-- However a destination is written, the path of its staged copy ends in a name. -/
theorem endsIn_staged {d : Path} {init : List String} {x : String}
    (h : d.segments = init ++ [x]) : (staged d).EndsIn init (x ++ ".mlc.partial") := by
  have hlen : (x ++ ".mlc.partial").length = x.length + 12 := by
    rw [String.length_append]
    rfl
  have hne : ∀ s : String, s.length < 12 → x ++ ".mlc.partial" ≠ s := by
    rintro s hs rfl
    omega
  have hx : '/' ∉ x.toList := not_mem_of_mem_segments (p := d) (by simp [h])
  refine ⟨segments_append h (by decide),
    hne _ (by decide), hne _ (by decide), hne _ (by decide), ?_⟩
  rw [String.toList_append, List.mem_append]
  exact not_or.mpr ⟨hx, by decide⟩

namespace EndsIn

variable {p q : Path} {init : List String} {n : String}

theorem text_ne (h : p.EndsIn init n) : p.text ≠ "" :=
  text_ne_of_mem_segments (by simp [h.segments_eq]) h.isName.1

theorem names_eq (h : p.EndsIn init n) : p.names = init.filter (· ≠ "") ++ [n] := by
  simp [names, h.segments_eq, h.isName.1]

theorem endsWithSlash_eq (h : p.EndsIn init n) : p.endsWithSlash = false := by
  simp [endsWithSlash, h.segments_eq, h.isName.1]

theorem steps_eq (h : p.EndsIn init n) : p.steps = init.filter (· ≠ "") ++ [n] := by
  rw [steps, h.endsWithSlash_eq, if_neg (by simp), h.names_eq]

theorem lastStep_eq (h : p.EndsIn init n) : Tree.lastStep p = .name n := by
  unfold Tree.lastStep
  rw [h.names_eq, List.getLast?_concat]
  split
  · rename_i hn; simp at hn
  · rename_i hn; exact absurd (Option.some.inj hn) h.isName.2.1
  · rename_i hn; exact absurd (Option.some.inj hn) h.isName.2.2.1
  · rename_i hn; rw [Option.some.inj hn]

theorem isAbsolute_eq (h : p.EndsIn init n) : p.isAbsolute = (init.head? == some "") :=
  isAbsolute_of_segments h.segments_eq h.isName.1

/-- The text may be continued as long as the last name stays one. -/
theorem append (h : p.EndsIn init n) {s : String} (hs : IsName (n ++ s)) :
    (p.append s).EndsIn init (n ++ s) := by
  refine ⟨segments_append h.segments_eq fun hmem => hs.2.2.2 ?_, hs⟩
  rw [String.toList_append, List.mem_append]
  exact .inr hmem

/-- What lies below a path that ends in a name ends in a name too. -/
theorem descend (h : p.EndsIn init n) {l : Location} {m : String} (hl : ∀ k ∈ l, IsName k)
    (hm : IsName m) : (p.descend (l ++ [m])).EndsIn (init ++ [n] ++ l) m := by
  have hall : ∀ k ∈ l ++ [m], IsName k := by
    intro k hk
    rcases List.mem_append.mp hk with hk | hk
    · exact hl k hk
    · rwa [List.mem_singleton.mp hk]
  have hseg : (p.descend (l ++ [m])).segments = init ++ n :: (ofSegments (l ++ [m])).segments :=
    segments_join h.segments_eq h.isName.1 (isAbsolute_ofSegments (by simp) hall)
  refine ⟨?_, hm⟩
  rw [hseg, segments_ofSegments (by simp) fun k hk => (hall k hk).2.2.2]
  simp

theorem staged (h : p.EndsIn init n) : (staged p).EndsIn init (n ++ ".mlc.partial") :=
  endsIn_staged h.segments_eq

/-! ## Parents -/

/-- The parent of a path that ends in a name is known from the segments before the name. -/
theorem parent?_eq (h : p.EndsIn init n) : p.parent? = parentOf init :=
  parent?_eq_parentOf h.segments_eq h.isName.proper (by simp)

/-- A path that ends in a name is the parent of what lies directly below it. -/
theorem parent?_child (h : p.EndsIn init n) {m : String} (hq : q.EndsIn (init ++ [n]) m) :
    q.parent? = some p := by
  have hn : proper n = true := h.isName.proper
  have hanchor : anchor (init ++ [n]) = anchor init := by
    cases init <;> simp [anchor, h.isName.1, h.isName.2.1]
  have hall : (init ++ [n]).take (anchor init) ++ (init.drop (anchor init) ++ [n]) =
      init ++ [n] := by
    rw [← drop_anchor, List.take_append_drop]
  have hp : ofSegments (init ++ [n]) = p := by rw [← h.segments_eq, ofSegments_segments]
  rw [hq.parent?_eq, parentOf, hanchor, drop_anchor, List.reverse_append]
  simp [hn, hall, hp]

end EndsIn

/-! ## Refusals -/

theorem refusal?_eq_none {p : Path} :
    p.refusal? = none ↔
      '\x00' ∉ p.text.toList ∧ p.text ≠ "" ∧ p.text.utf8ByteSize < maxPath := by
  unfold refusal? hasNul isTooLong
  split_ifs with hnul hempty hlong
  · simp only [List.contains_iff_mem] at hnul
    simp [hnul]
  · simp [hempty]
  · simp only [decide_eq_true_eq] at hlong
    simp [hlong]
  · simp only [List.contains_iff_mem, decide_eq_true_eq] at hnul hlong
    exact iff_of_true rfl ⟨hnul, hempty, Nat.lt_of_not_le hlong⟩

/-- Nothing in the path alone stands against a walk if nothing does for a longer text. -/
theorem refusal?_of_append {p q : Path} {s : String} (hq : q.refusal? = none)
    (htext : q.text = p.text ++ s) (hp : p.text ≠ "") : p.refusal? = none := by
  obtain ⟨hnul, -, hlong⟩ := refusal?_eq_none.mp hq
  rw [htext, String.toList_append, List.mem_append, not_or] at hnul
  rw [htext, String.utf8ByteSize_append] at hlong
  exact refusal?_eq_none.mpr ⟨hnul.1, hp, by omega⟩

end Path

end Haulage.Disk
