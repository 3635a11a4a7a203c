import Haulage.Copy.Session

/-!
# Progress of a copy

Every chunk brings a session closer to its end. What is left to do is measured
by three numbers, compared in this order: the entries not yet turned to, whether
a file of a directory is open, and the bytes left of what is open.
`copyChunk_progress` says that a copied chunk lowers the measure, so that a
session which never fails completes. What one step of an open copy can do is
said once, in `step_cases`.
-/

namespace Haulage

open Disk (Bytes Handle Path Tree)

namespace OpenCopy

/-- The bytes left to copy. -/
def remaining (t : Tree) (copy : OpenCopy) : Nat :=
  match copy.source with
  | .directory _ => 0
  | .file id => t.size id - copy.position

end OpenCopy

namespace Session

/-- What is left to do. -/
def work (t : Tree) : Session → Nat × Nat × Nat
  | .file copy _ => (0, 0, copy.remaining t)
  | .buffer data position _ _ => (0, 0, data.size - position)
  | .directory _ pending none _ => (pending.length, 0, 0)
  | .directory _ pending (some (copy, _)) _ => (pending.length, 1, copy.remaining t)

/-- The order in which progress is measured. -/
abbrev Less : Nat × Nat × Nat → Nat × Nat × Nat → Prop :=
  Prod.Lex (· < ·) (Prod.Lex (· < ·) (· < ·))

/-- A step of an open copy fails if its source is a directory, or else it finds nothing left, or
it writes a chunk where the last one ended. -/
theorem step_cases (t : Tree) (n : Nat) (copy : OpenCopy) :
    (∃ l, copy.source = .directory l ∧
        OpenCopy.step t n copy = .error (.atSource .isDirectory)) ∨
      ∃ id, copy.source = .file id ∧
        ((t.readAt id copy.position n).size = 0 ∧ OpenCopy.step t n copy = .ok (0, copy, t) ∨
          (t.readAt id copy.position n).size ≠ 0 ∧ OpenCopy.step t n copy =
            .ok ((t.readAt id copy.position n).size,
              { copy with position := copy.position + (t.readAt id copy.position n).size },
              t.writeAt copy.target copy.position (t.readAt id copy.position n))) := by
  unfold OpenCopy.step
  split
  · rename_i l hs
    exact .inl ⟨l, hs, rfl⟩
  · rename_i id hs
    by_cases hempty : (t.readAt id copy.position n).size = 0
    · exact .inr ⟨id, hs, .inl ⟨hempty, if_pos hempty⟩⟩
    · exact .inr ⟨id, hs, .inr ⟨hempty, if_neg hempty⟩⟩

/-- A copied chunk lowers what is left of an open copy. -/
theorem step_progress {t t' : Tree} {n k : Nat} {copy copy' : OpenCopy} (hn : 0 < n)
    (h : OpenCopy.step t n copy = .ok (k + 1, copy', t')) :
    copy'.remaining t' < copy.remaining t := by
  rcases step_cases t n copy with ⟨l, -, hstep⟩ | ⟨id, hs, ⟨-, hstep⟩ | ⟨hne, hstep⟩⟩
  · simp [hstep] at h
  · simp [hstep] at h
  · simp only [hstep, Except.ok.injEq, Prod.mk.injEq] at h
    obtain ⟨-, rfl, rfl⟩ := h
    have hlen := Tree.size_readAt t id copy.position n
    have hsize := Tree.size_writeAt_le t copy.target id copy.position
      (t.readAt id copy.position n)
    simp only [OpenCopy.remaining, hs]
    omega

/-- Going through the entries uses them up. -/
theorem openNext_length {t : Tree} {source destination : Path} {pending : List Pending} :
    ∀ {r rest t'}, openNext t source destination pending = (.ok (some r), rest, t') →
      rest.length < pending.length := by
  induction pending generalizing t with
  | nil => intro r rest t' h; simp [openNext] at h
  | cons entry pending ih =>
    intro r rest t' h
    unfold openNext at h
    split at h
    · simp at h
    · exact Nat.lt_succ_of_lt (ih h)
    · simp only [Prod.mk.injEq, Except.ok.injEq, Option.some.injEq] at h
      simp [← h.2.1]

/-- A copied chunk of the open file of a directory lowers what is left. -/
theorem copyCurrent_progress {t t' : Tree} {n k : Nat} {source target destination : Path}
    {pending : List Pending} {copy : OpenCopy} {s' : Session} (hn : 0 < n)
    (h : copyCurrent n t source pending copy target destination = (.ok (.copied k), s', t')) :
    Less (s'.work t') (pending.length, 1, copy.remaining t) := by
  unfold copyCurrent at h
  split at h
  · simp at h
  · simp only [Prod.mk.injEq] at h
    rw [← h.2.1]
    exact Prod.Lex.right _ (Prod.Lex.left _ _ (Nat.zero_lt_one))
  · rename_i k' copy' t'' hk hstep
    simp only [Prod.mk.injEq] at h
    obtain ⟨-, hs, ht⟩ := h
    subst hs ht
    cases k' with
    | zero => exact (hk rfl).elim
    | succ m => exact Prod.Lex.right _ (Prod.Lex.right _ (step_progress hn hstep))

/-- A copied chunk lowers what is left. -/
theorem copyChunk_progress {t t' : Tree} {n k : Nat} {s s' : Session} (hn : 0 < n)
    (h : copyChunk n t s = (.ok (.copied k), s', t')) : Less (s'.work t') (s.work t) := by
  unfold copyChunk at h
  split at h
  · split at h
    · simp at h
    · simp at h
    · rename_i k' copy' t'' hk hstep
      simp only [Prod.mk.injEq] at h
      obtain ⟨-, hs, ht⟩ := h
      subst hs ht
      cases k' with
      | zero => exact (hk rfl).elim
      | succ m => exact Prod.Lex.right _ (Prod.Lex.right _ (step_progress hn hstep))
  · rename_i data position target destination
    simp only at h
    split at h
    · simp at h
    · rename_i hne
      simp only [Prod.mk.injEq] at h
      obtain ⟨-, hs, -⟩ := h
      subst hs
      refine Prod.Lex.right _ (Prod.Lex.right _ ?_)
      rw [Bytes.size_slice]
      omega
  · exact copyCurrent_progress hn h
  · split at h
    · simp at h
    · simp at h
    · rename_i copy target rest t₁ hopen
      have hlt := openNext_length hopen
      have := copyCurrent_progress hn h
      rcases Prod.lex_def.mp this with hlt' | ⟨heq, -⟩
      · exact Prod.lex_def.mpr (Or.inl (Nat.lt_trans hlt' hlt))
      · exact Prod.lex_def.mpr (Or.inl (heq ▸ hlt))

end Session

end Haulage
