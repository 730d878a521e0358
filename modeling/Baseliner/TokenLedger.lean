import Mathlib.Algebra.Order.Group.Multiset
import Mathlib.Data.Multiset.Range
import Mathlib.Logic.Relation

/-! A ledger of numbered tokens. A token is issued once, stays pending, and may
be settled with an outcome. A ledger reached from the empty one accounts for
every token it has issued, whatever the order of the steps. -/

namespace Baseliner.TokenLedger

variable {ω : Type*}

structure Ledger (ω : Type*) where
  issued : ℕ
  pending : Multiset ℕ
  settled : List (ℕ × ω)

inductive Step : Ledger ω → Ledger ω → Prop
  | issue (l : Ledger ω) :
      Step l { l with issued := l.issued + 1, pending := l.issued ::ₘ l.pending }
  | settle (l : Ledger ω) (rest : Multiset ℕ) (n : ℕ) (w : ω) (h : l.pending = n ::ₘ rest) :
      Step l { l with pending := rest, settled := l.settled ++ [(n, w)] }

abbrev Steps : Ledger ω → Ledger ω → Prop := Relation.ReflTransGen Step

/-- Every issued token is pending or settled, and none of them twice. -/
def Balanced (l : Ledger ω) : Prop :=
  l.pending + (l.settled.map Prod.fst : List ℕ) = Multiset.range l.issued

theorem Step.balanced {l m : Ledger ω} (h : Step l m) (balanced : Balanced l) : Balanced m := by
  cases h with
  | issue =>
      unfold Balanced at balanced ⊢
      rw [Multiset.range_succ, ← balanced, Multiset.cons_add]
  | settle rest n w h =>
      unfold Balanced at balanced ⊢
      have last : (([(n, w)].map Prod.fst : List ℕ) : Multiset ℕ) = {n} := rfl
      rw [← balanced, h, List.map_append, ← Multiset.coe_add, last, ← add_assoc,
        Multiset.add_comm _ {n}, Multiset.singleton_add, Multiset.cons_add]

theorem Steps.balanced {l m : Ledger ω} (h : Steps l m) (balanced : Balanced l) : Balanced m := by
  induction h with
  | refl => exact balanced
  | tail _ step ih => exact step.balanced ih

theorem Balanced.count_eq {l : Ledger ω} (h : Balanced l) {n : ℕ} (hn : n < l.issued) :
    l.pending.count n + (l.settled.map Prod.fst).count n = 1 := by
  have counts := congrArg (Multiset.count n) h
  rw [Multiset.count_add, Multiset.coe_count,
    Multiset.count_eq_one_of_mem (Multiset.nodup_range _) (Multiset.mem_range.mpr hn)] at counts
  exact counts

/-- The pending tokens are distinct and have been issued. Unlike a balance this
survives the loss of pending tokens. -/
def Numbered (l : Ledger ω) : Prop := l.pending.Nodup ∧ ∀ n ∈ l.pending, n < l.issued

theorem Step.numbered {l m : Ledger ω} (h : Step l m) (numbered : Numbered l) : Numbered m := by
  obtain ⟨nodup, issued⟩ := numbered
  cases h with
  | issue =>
      refine ⟨Multiset.nodup_cons.mpr ⟨fun old => ?_, nodup⟩, ?_⟩
      · exact Nat.lt_irrefl _ (issued _ old)
      · intro n hn
        rcases Multiset.mem_cons.mp hn with rfl | hn
        · exact Nat.lt_succ_self _
        · exact Nat.lt_succ_of_lt (issued n hn)
  | settle rest n w h =>
      rw [h] at nodup issued
      exact ⟨(Multiset.nodup_cons.mp nodup).2, fun k hk => issued k (Multiset.mem_cons_of_mem hk)⟩

theorem Steps.numbered {l m : Ledger ω} (h : Steps l m) (numbered : Numbered l) : Numbered m := by
  induction h with
  | refl => exact numbered
  | tail _ step ih => exact step.numbered ih

end Baseliner.TokenLedger
