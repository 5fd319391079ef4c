import Mathlib.Data.List.Chain
import Playground.Memento

/-!
# Edits, undos and redos in any order

The snapshots form one line of edits: those on the undo stack from the bottom
up, then those on the redo stack from the top down. The editor always shows
the snapshot on top of the undo stack, or the first of all when the undo stack
is empty, so that undo and redo take each other back wherever they meet.
-/

namespace Playground.Memento

section
variable {α : Type}

inductive Op (α : Type)
  | edit (e : Edit α)
  | undo
  | redo

def Session.step (s : Session α) : Op α → Session α
  | .edit e => s.edit e
  | .undo => s.undo
  | .redo => s.redo

def run (ops : List (Op α)) : Session α := ops.foldl Session.step {}

/-! ## One step -/

/-- The snapshots, the oldest first. -/
def History.line (h : History α) : List (ConcreteMemento α) := h.undoStack.reverse ++ h.redoStack

theorem line_undo (h : History α) : h.undo.1.line = h.line := by
  obtain ⟨u, r⟩ := h
  cases u with
  | nil => rfl
  | cons m u =>
    show u.reverse ++ m :: r = (m :: u).reverse ++ r
    rw [List.reverse_cons, List.append_assoc]
    rfl

theorem line_redo (h : History α) : h.redo.1.line = h.line := by
  obtain ⟨u, r⟩ := h
  cases r with
  | nil => rfl
  | cons m r =>
    show (m :: u).reverse ++ r = u.reverse ++ m :: r
    rw [List.reverse_cons, List.append_assoc]
    rfl

/-- What the editor shows, once there is a snapshot. -/
def History.shown (h : History α) : Option (ConcreteMemento α) := h.undoStack.head?.or h.redoStack.head?

/-- `m'` is what an edit makes of the state in `m`. -/
def OneEdit (m m' : ConcreteMemento α) : Prop := ∃ e, m' = ((⟨m.content, m.cursor⟩ : TextEditor α).apply e).save

structure Inv (s : Session α) : Prop where
  shown : ∀ m ∈ s.history.shown, s.editor = ⟨m.content, m.cursor⟩
  fresh : s.history.shown = none → s.editor = {}
  line : s.history.line.IsChain OneEdit

variable {s : Session α}

theorem Inv.edit (h : Inv s) (e : Edit α) : Inv (s.edit e) where
  shown := by
    rintro m ⟨⟩
    rfl
  fresh := nofun
  line := by
    show (((s.editor.apply e).save :: s.history.undoStack).reverse ++ []).IsChain OneEdit
    rw [List.append_nil, List.reverse_cons]
    refine h.line.left_of_append.append (List.isChain_singleton _) ?_
    rintro m hm m' ⟨⟩
    rw [List.getLast?_reverse] at hm
    have hshown := h.shown m (by rw [History.shown, hm]; rfl)
    exact ⟨e, by rw [← hshown]⟩

theorem Inv.undo (h : Inv s) : Inv s.undo := by
  have hline : s.undo.history.line.IsChain OneEdit := (line_undo s.history).symm ▸ h.line
  obtain ⟨editor, ⟨u, r⟩⟩ := s
  cases u with
  | nil => exact h
  | cons m u =>
    refine ⟨?_, fun hnone => ?_, hline⟩
    · cases u with
      | nil =>
        rintro m' ⟨⟩
        exact h.shown m rfl
      | cons m' u =>
        rintro m'' ⟨⟩
        rfl
    · cases u <;> cases hnone

theorem Inv.redo (h : Inv s) : Inv s.redo := by
  have hline : s.redo.history.line.IsChain OneEdit := (line_redo s.history).symm ▸ h.line
  obtain ⟨editor, ⟨u, r⟩⟩ := s
  cases r with
  | nil => exact h
  | cons m r =>
    refine ⟨?_, nofun, hline⟩
    rintro m' ⟨⟩
    rfl

theorem Inv.step (h : Inv s) (op : Op α) : Inv (s.step op) := by
  cases op with
  | edit e => exact h.edit e
  | undo => exact h.undo
  | redo => exact h.redo

theorem inv_run (ops : List (Op α)) : Inv (run ops) := by
  induction ops using List.reverseRecOn with
  | nil => exact ⟨nofun, fun _ => rfl, List.isChain_nil⟩
  | append_singleton ops op ih =>
    rw [run, List.foldl_append]
    exact ih.step op

theorem Inv.iterate_undo (h : Inv s) (k : Nat) : Inv (Session.undo^[k] s) := by
  induction k with
  | zero => exact h
  | succ k ih =>
    rw [Function.iterate_succ_apply']
    exact ih.undo

theorem Inv.iterate_redo (h : Inv s) (k : Nat) : Inv (Session.redo^[k] s) := by
  induction k with
  | zero => exact h
  | succ k ih =>
    rw [Function.iterate_succ_apply']
    exact ih.redo

/-! ## There and back -/

theorem Inv.redo_undo (h : Inv s) (hu : s.history.undoStack ≠ []) : s.undo.redo = s := by
  obtain ⟨editor, ⟨u, r⟩⟩ := s
  cases u with
  | nil => exact absurd rfl hu
  | cons m u =>
    have hshown : editor = ⟨m.content, m.cursor⟩ := h.shown m rfl
    rw [hshown]
    rfl

theorem Inv.undo_redo (h : Inv s) (hr : s.history.redoStack ≠ []) : s.redo.undo = s := by
  obtain ⟨editor, ⟨u, r⟩⟩ := s
  cases r with
  | nil => exact absurd rfl hr
  | cons m r =>
    cases u with
    | nil =>
      have hshown : editor = ⟨m.content, m.cursor⟩ := h.shown m rfl
      rw [hshown]
      rfl
    | cons m' u =>
      have hshown : editor = ⟨m'.content, m'.cursor⟩ := h.shown m' rfl
      rw [hshown]
      rfl

theorem redoStack_redos (s : Session α) (k : Nat) :
    (Session.redo^[k] s).history.redoStack = s.history.redoStack.drop k := by
  induction k with
  | zero => rfl
  | succ k ih =>
    rw [Function.iterate_succ_apply', ← List.drop_drop, ← ih]
    obtain ⟨editor, ⟨u, r⟩⟩ := Session.redo^[k] s
    cases r <;> rfl

theorem Inv.redos_undos (h : Inv s) {k : Nat} (hk : k ≤ s.history.undoStack.length) :
    Session.redo^[k] (Session.undo^[k] s) = s := by
  induction k with
  | zero => rfl
  | succ k ih =>
    rw [Function.iterate_succ_apply' Session.undo, Function.iterate_succ_apply, (h.iterate_undo k).redo_undo]
    · exact ih (Nat.le_of_succ_le hk)
    · rw [history_undos s (Nat.le_of_succ_le hk)]
      exact fun hnil => absurd (List.drop_eq_nil_iff.mp hnil) (Nat.not_le.mpr hk)

theorem Inv.undos_redos (h : Inv s) {k : Nat} (hk : k ≤ s.history.redoStack.length) :
    Session.undo^[k] (Session.redo^[k] s) = s := by
  induction k with
  | zero => rfl
  | succ k ih =>
    rw [Function.iterate_succ_apply' Session.redo, Function.iterate_succ_apply, (h.iterate_redo k).undo_redo]
    · exact ih (Nat.le_of_succ_le hk)
    · rw [redoStack_redos]
      exact fun hnil => absurd (List.drop_eq_nil_iff.mp hnil) (Nat.not_le.mpr hk)

/-- **Undo and redo in any order.** After any sequence of edits, undos and redos the editor shows the snapshot on
top of the undo stack, or below it the first of all, and the fresh text when there is none; the snapshots are one
line, each an edit of the one before; and as many redos as undos, or undos as redos, lead back to the same editor
and the same stacks. -/
theorem session_run (ops : List (Op α)) :
    (∀ m ∈ (run ops).history.shown, (run ops).editor = ⟨m.content, m.cursor⟩) ∧
      ((run ops).history.shown = none → (run ops).editor = {}) ∧
      (run ops).history.line.IsChain OneEdit ∧
      (∀ k ≤ (run ops).history.undoStack.length, Session.redo^[k] (Session.undo^[k] (run ops)) = run ops) ∧
      ∀ k ≤ (run ops).history.redoStack.length, Session.undo^[k] (Session.redo^[k] (run ops)) = run ops := by
  have h := inv_run ops
  exact ⟨h.shown, h.fresh, h.line, fun k hk => h.redos_undos hk, fun k hk => h.undos_redos hk⟩

end

end Playground.Memento
