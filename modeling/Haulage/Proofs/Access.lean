import Haulage.Proofs.Entries

/-!
# Ways that are open

The lemmas on walks say where a walk has been if it came to an end. Those here say that it does: a
directory that can be reached can be listed, a path that ends in a name is seated in its parent if
this is there, what stands below a directory is found along the path below its path, and at a free
seat a directory can be made. What may still be in the way are the limits of paths and names, which
are named as hypotheses.
-/

namespace Haulage.Disk

/-! ## Texts of paths -/

namespace Path

variable {p q : Path} {l : Location}

/-- A path contains no character that is in neither of the two that it was joined of. -/
theorem not_mem_join {c : Char} (hc : c ≠ '/') (hp : c ∉ p.text.toList) (hq : c ∉ q.text.toList) :
    c ∉ (p.join q).text.toList := by
  unfold join
  split
  · exact hq
  · split
    · simp [hp, hq]
    · simp [hp, hq, hc]

/-- What is joined to a path is part of the whole. -/
theorem not_mem_of_not_mem_join {c : Char} (h : c ∉ (p.join q).text.toList) :
    c ∉ q.text.toList := by
  unfold join at h
  split at h
  · exact h
  · split at h
    · simp only [String.toList_append, List.mem_append, not_or] at h
      exact h.2
    · simp only [String.toList_append, List.mem_append, not_or] at h
      exact h.2

/-- The names that one path may be continued with do for another, unless it becomes too long. -/
theorem refusal?_descend (hp : p.refusal? = none) (hq : (q.descend l).refusal? = none)
    (hlong : (p.descend l).isTooLong = false) : (p.descend l).refusal? = none := by
  obtain ⟨hnul, hne, -⟩ := refusal?_eq_none.mp hp
  have hnames := not_mem_of_not_mem_join (refusal?_eq_none.mp hq).1
  refine refusal?_eq_none.mpr ⟨not_mem_join (by decide) hnul hnames, ?_, ?_⟩
  · unfold descend join
    split
    · rename_i habs
      rintro hempty
      rw [isAbsolute, hempty] at habs
      exact absurd habs (by decide)
    · split
      · simp [hne]
      · simp [hne]
  · simpa [isTooLong] using hlong

end Path

namespace Tree

variable {t : Tree} {p : Path} {init : List String} {n : String} {dir : Location}

/-! ## Walks that come to an end -/

/-- What a walk reaches, it comes to an entry of also where a final link is not followed. -/
theorem walk_entry_of_reach {l : Location} (hl : t.lookup l ≠ none) :
    ∀ (k : Nat) (here : Location) (steps : List String),
      t.walk .reach k here steps = .ok (.found l) →
      ∃ m, t.walk .entry k here steps = .ok (.found m) ∧ t.lookup m ≠ none
  | k, here, [], h => by
    rw [walk_nil] at h
    exact ⟨l, by rw [walk_nil]; exact h, hl⟩
  | k, here, step :: rest, h => by
    cases stride_of_walk h with
    | idle hidle hwalk =>
      rw [walk_idle hidle]
      exact walk_entry_of_reach hl k here rest hwalk
    | up hwalk =>
      rw [walk_up]
      exact walk_entry_of_reach hl k here.dropLast rest hwalk
    | vacant _ _ hx => cases hx
    | @last _ _ _ e hstep hlook _ hlink hx =>
      exact ⟨_, walk_found hstep hlook (.inl rfl), by simp [hlook]⟩
    | down hstep hlook hslash hwalk =>
      rw [walk_directory hstep hlook (by simp)]
      exact walk_entry_of_reach hl k (here ++ [step]) rest hwalk
    | @link k _ _ _ target hstep hlook hgo hslash hwalk =>
      cases rest with
      | nil => exact ⟨_, walk_found hstep hlook (.inl rfl), by simp [hlook]⟩
      | cons step' rest =>
        rw [walk_link hstep hlook (.inl (by simp)) (by simp)]
        exact walk_entry_of_reach hl k (origin here target) (target.steps ++ step' :: rest) hwalk
termination_by k _ steps => (k, steps.length)

/-- A path that leads somewhere names an entry. -/
theorem linkStatus_of_resolve {l : Location} (h : t.resolve .reach p = .ok l)
    (hl : t.lookup l ≠ none) : ∃ x, t.linkStatus p = .ok x := by
  have hplace := place_of_resolve h
  unfold place at hplace
  split at hplace
  · cases hplace
  rename_i hrefusal
  obtain ⟨m, hm, hlook⟩ := walk_entry_of_reach hl _ _ _ hplace
  have hentry : t.resolve .entry p = .ok m := by simp only [resolve, place, hrefusal, hm]
  obtain ⟨x, hx⟩ := Option.ne_none_iff_exists'.mp fun hnone => hlook (node?_eq_none.mp hnone)
  exact ⟨x, by simp only [linkStatus, hentry, hx]⟩

/-- A directory that a path leads to can be listed, unless the path to a directory in it is too
long. -/
theorem listing_of_resolve {s : Location} (h : t.resolve .reach p = .ok s)
    (hdir : t.lookup s = some .directory) (hfar : listsTooFar p (t.entriesBelow s) = false) :
    t.listing p = .ok ((t.entriesBelow s).mergeSort listedBefore) := by
  obtain ⟨x, hx⟩ := linkStatus_of_resolve h (by simp [hdir])
  simp only [listing, hx, h, hdir, hfar, Bool.false_eq_true, if_false]

/-- Idle steps lead nowhere. -/
theorem leads_of_idle {k : Nat} {here : Location} {ss : List String}
    (h : ∀ s ∈ ss, Path.Idle s) : t.Leads k here ss k here := by
  induction ss with
  | nil => exact .done
  | cons s ss ih =>
    exact .idle (Path.idle_iff.mp (h s List.mem_cons_self))
      (ih fun x hx => h x (List.mem_cons_of_mem _ hx))

/-- A path that ends in a name has its seat in its parent, if this is there. -/
theorem HasParents.seats (h : t.HasParents p) (hp : p.EndsIn init n)
    (hrefusal : p.refusal? = none) (hsize : n.utf8ByteSize ≤ maxName) :
    ∃ dir, t.Seats p dir n := by
  have hnames : p.names.dropLast = init.filter (· ≠ "") := by rw [hp.names_eq, List.dropLast_concat]
  suffices hway : ∃ k dir, t.Leads maxLinks (origin t.home p) (init.filter (· ≠ "")) k dir by
    obtain ⟨k, dir, hleads⟩ := hway
    exact ⟨dir, holder_eq_ok.mpr ⟨hrefusal, k, hnames ▸ hleads⟩, hp.lastStep_eq, hsize,
      hp.endsWithSlash_eq⟩
  rcases Path.idle_or_split init with hidle | ⟨w, y, idle, rfl, hy, hidle⟩
  · exact ⟨_, _, leads_of_idle fun s hs => hidle s (List.mem_of_mem_filter hs)⟩
  · have hseg : (Path.ofSegments (w ++ [y])).segments = w ++ [y] :=
      Path.segments_ofSegments_of_subset (p := p) (by simp) (by simp [hp.segments_eq])
    have hne : y ≠ "" := by
      rintro rfl
      exact absurd hy (by decide)
    have hparent := hp.parent?_eq.trans (Path.parentOf_split hy hidle)
    have hstatus := (h _ hparent).resolve_left fun htext => by
      have hempty : (Path.ofSegments (w ++ [y])).segments = [""] := by
        rw [Path.segments, htext]
        decide
      rw [hseg] at hempty
      cases w <;> simp_all
    obtain ⟨s, hs, hnode⟩ := resolve_of_status hstatus
    obtain ⟨-, k, hleads⟩ := leads_of_resolve hs (lookup_of_node?_directory hnode)
    have hnames' : (Path.ofSegments (w ++ [y])).names = (w ++ [y]).filter (· ≠ "") := by
      rw [Path.names, hseg]
    have horigin : origin t.home p = origin t.home (Path.ofSegments (w ++ [y])) := by
      unfold origin
      rw [Path.isAbsolute_of_segments hseg hne, Path.isAbsolute_of_segments
        (by rw [hp.segments_eq, List.append_assoc, List.cons_append]) hne]
    rw [hnames'] at hleads
    have hsplit : (w ++ y :: idle).filter (· ≠ "") =
        (w ++ [y]).filter (· ≠ "") ++ idle.filter (· ≠ "") := by
      rw [← List.filter_append, List.append_assoc, List.singleton_append]
    rw [hsplit, horigin]
    exact ⟨k, s, hleads.trans (leads_of_idle fun x hx => hidle x (List.mem_of_mem_filter hx))⟩

/-! ## Seats that are free -/

/-- A directory is made at a free seat. -/
theorem Seats.makeDirectories_vacant (h : t.Seats p dir n)
    (hlook : t.lookup (dir ++ [n]) = none) :
    t.makeDirectories p = (.ok (), t.insert (dir ++ [n]) .directory) := by
  have hne : p.text ≠ "" := (Path.refusal?_eq_none.mp (holder_eq_ok.mp h.holder_eq).1).2.1
  rw [makeDirectories, makeChain, if_neg hne, h.makeDirectory_vacant hlook]

/-- What stands below a directory that a path leads to is found along the path below that path. -/
theorem resolve_below {s rel : Location} {m : String} {e : Entry}
    (hsource : t.resolve .reach p = .ok s) (hdir : t.lookup s = some .directory)
    (hname : ∀ k ∈ rel ++ [m], IsName k ∧ k.utf8ByteSize ≤ maxName)
    (hdirs : ∀ r, r <+: rel → r ≠ [] → t.lookup (s ++ r) = some .directory)
    (hlook : t.lookup (s ++ rel ++ [m]) = some e) (hlink : ∀ target, e ≠ .link target)
    (hrefusal : (p.descend (rel ++ [m])).refusal? = none) :
    t.resolve .reach (p.descend (rel ++ [m])) = .ok (s ++ rel ++ [m]) := by
  obtain ⟨hp, k, hleads⟩ := leads_of_resolve hsource hdir
  obtain ⟨hsteps, habs⟩ := Path.steps_descend (Path.refusal?_eq_none.mp hp).2.1 (by simp)
    fun k hk => (hname k hk).1
  have henters : ∀ k ∈ rel ++ [m], Enters k := fun k hk =>
    ⟨(hname k hk).1.1, (hname k hk).1.2.1, (hname k hk).1.2.2.1, (hname k hk).2⟩
  have hway := hleads.trans (leads_down (fun k hk => henters k (List.mem_append_left _ hk)) hdirs)
  have hwalk : t.walk .reach maxLinks (origin t.home p) (p.names ++ rel ++ [m]) =
      .ok (.found (s ++ rel ++ [m])) := by
    rw [hway.walk_append (by simp) (by simp),
      walk_found (henters m (List.mem_append_right _ (List.mem_singleton_self m))) hlook
        (.inr hlink)]
  simp only [resolve, place, hrefusal, hsteps, origin, habs]
  rw [← List.append_assoc, ← origin, hwalk]

/-- An entry is moved to a place that is apart from it, unless a directory stands there, or
anything at all if the entry is a directory. -/
theorem moveEntry_ok {l m : Location} {e : Entry} (hl : t.lookup l = some e) (hlm : ¬l <+: m)
    (hml : ¬m <+: l) (hm : t.lookup m ≠ some .directory)
    (hfree : e = .directory → t.lookup m = none) : ∃ t', t.moveEntry l m false = .ok t' := by
  have hdrop {a b : Location} (h : ¬a <+: b) : a.isPrefixOf b.dropLast = false := by
    refine Bool.eq_false_iff.mpr fun hpre => h ?_
    exact (List.isPrefixOf_iff_prefix.mp hpre).trans (List.dropLast_prefix b)
  have hne : l ≠ m := fun h => hlm (h ▸ List.prefix_refl l)
  simp only [moveEntry, hl, hdrop hlm, hdrop hml, if_neg hne, Bool.and_false,
    Bool.false_eq_true, if_false]
  cases hlook : t.lookup m with
  | none => exact ⟨_, rfl⟩
  | some e' =>
    have he : e ≠ .directory := fun h => by simp [hlook] at hfree; exact hfree h
    cases e' with
    | directory => exact absurd hlook hm
    | file id => exact ⟨_, by simp only [if_neg he]; rfl⟩
    | link target => exact ⟨_, by simp only [if_neg he]; rfl⟩

end Tree

end Haulage.Disk
