import Mathlib.Logic.Relation
import Mathlib.Order.Basic

namespace Xv6.Lib.LockOrder

variable {T L R : Type} [Preorder R] {holds : T → L → Prop} {wants : T → Option L} {rank : L → R}

def WaitsFor (holds : T → L → Prop) (wants : T → Option L) (t u : T) : Prop :=
  (∃ l, holds t l) ∧ ∃ l, wants t = some l ∧ holds u l

def Ordered (holds : T → L → Prop) (wants : T → Option L) (rank : L → R) : Prop :=
  ∀ t l l', holds t l → wants t = some l' → rank l < rank l'

theorem Ordered.chain (h : Ordered holds wants rank) {t u : T}
    (hw : Relation.TransGen (WaitsFor holds wants) t u) :
    ∃ l l', wants t = some l ∧ holds u l' ∧ rank l ≤ rank l' := by
  induction hw with
  | single hw =>
    obtain ⟨-, l, hl, hu⟩ := hw
    exact ⟨l, l, hl, hu, le_rfl⟩
  | tail _ hw ih =>
    obtain ⟨l, l', hl, hu, hle⟩ := ih
    obtain ⟨-, m, hm, hv⟩ := hw
    exact ⟨l, m, hl, hv, hle.trans (h _ _ _ hu hm).le⟩

theorem Ordered.acyclic (h : Ordered holds wants rank) (t : T) :
    ¬ Relation.TransGen (WaitsFor holds wants) t t := by
  intro hw
  obtain ⟨l, l', hl, ht, hle⟩ := h.chain hw
  exact absurd ((h _ _ _ ht hl).trans_le hle) (lt_irrefl _)

end Xv6.Lib.LockOrder
