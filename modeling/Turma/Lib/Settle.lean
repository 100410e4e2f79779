import Mathlib.Tactic.Basic

/-! What a queue of writes makes of one cell of a store. A write settles the cell, unsettles it or
leaves it as it was, and never does worse on a cell that was settled. -/

namespace Turma.Lib

variable {γ ω : Type*} (settles : γ → ω → Prop → Prop)

def SettlesMono : Prop := ∀ c w (b b' : Prop), (b → b') → settles c w b → settles c w b'

/-- Whether `c` is settled once the writes have run, where `b` says it of now. -/
def settled (c : γ) (ws : List ω) (b : Prop) : Prop := ws.foldl (fun b w => settles c w b) b

@[simp] theorem settled_nil (c : γ) (b : Prop) : settled settles c [] b = b := rfl

@[simp] theorem settled_cons (c : γ) (w : ω) (ws : List ω) (b : Prop) :
    settled settles c (w :: ws) b = settled settles c ws (settles c w b) := rfl

theorem settled_append (c : γ) (ws ws' : List ω) (b : Prop) :
    settled settles c (ws ++ ws') b = settled settles c ws' (settled settles c ws b) :=
  List.foldl_append

variable {settles}

theorem settled_mono (h : SettlesMono settles) (c : γ) (ws : List ω) {b b' : Prop} (hb : b → b') :
    settled settles c ws b → settled settles c ws b' := by
  induction ws generalizing b b' with
  | nil => exact hb
  | cons w ws ih => exact ih (h c w b b' hb)

theorem settled_of_true {c : γ} {ws : List ω} (h : ∀ w ∈ ws, settles c w True) {b : Prop} (hb : b) :
    settled settles c ws b := by
  induction ws generalizing b with
  | nil => exact hb
  | cons w ws ih =>
    have hw : settles c w b := by
      rw [show b = True from propext ⟨fun _ => trivial, fun _ => hb⟩]
      exact h w List.mem_cons_self
    exact ih (fun w' hw' => h w' (.tail _ hw')) hw

/-- A cell stays settled where a write is dropped that only writes before it could unsettle. -/
theorem settled_drop (h : SettlesMono settles) {c : γ} {ws ws' : List ω} {w : ω}
    (hws : settled settles c ws True) (hall : settled settles c (ws ++ w :: ws') True) :
    settled settles c (ws ++ ws') True := by
  rw [settled_append] at hall ⊢
  refine settled_mono h c ws' (fun _ => hws) hall

/-- The dropping of a write that leaves the cell as it was makes no difference. -/
theorem settled_drop_same {c : γ} {ws ws' : List ω} {w : ω} (hw : ∀ b, settles c w b = b) (b : Prop) :
    settled settles c (ws ++ w :: ws') b = settled settles c (ws ++ ws') b := by
  rw [settled_append, settled_append, settled_cons, hw]

end Turma.Lib
