import Mathlib.Data.Set.Function
import DigCoinstore.Hints

/-!
# Runs of the store

`Reachable U P s`: `s` is the state after some sequence of calls on a store that was opened on an
empty backend, where no backend call fails, every coin of the run lies in `U` and every block
satisfies `P`. A call that ends with an error counts with the state it leaves. `Accepted s bs s'`:
the blocks `bs` were accepted one after the other from `s` to `s'`.
-/

namespace DigCoinstore

variable [Chia]

/-- The coins a block creates. -/
def BlockData.coins (block : BlockData) : List Coin :=
  block.coinbaseCoins ++ block.additions.map (·.coin)

/-- Every addition carries the id of its coin, as `CoinAddition` documents. -/
def BlockData.Honest (block : BlockData) : Prop :=
  ∀ a ∈ block.additions, a.coinId = Chia.coinId a.coin

/-- The ids claimed for the additions are, taken together, those of their coins. -/
def BlockData.ClaimsItsCoins (block : BlockData) : Prop :=
  ∀ id, (∃ a ∈ block.additions, a.coinId = id) ↔ ∃ a ∈ block.additions, Chia.coinId a.coin = id

theorem BlockData.Honest.claimsItsCoins {block : BlockData} (h : block.Honest) :
    block.ClaimsItsCoins := fun id => by
  constructor
  · rintro ⟨a, ha, rfl⟩
    exact ⟨a, ha, (h a ha).symm⟩
  · rintro ⟨a, ha, rfl⟩
    exact ⟨a, ha, h a ha⟩

/-- **The states of a run** without backend errors. -/
inductive Reachable (U : Set Coin) (P : BlockData → Prop) : CoinStore → Prop
  | new {config : CoinStoreConfig} {s : CoinStore} :
    CoinStore.withConfig config .fresh = .ok s → Reachable U P s
  | initGenesis {s : CoinStore} {coins : List (Coin × Bool)} {timestamp : UInt64} :
    Reachable U P s → (∀ c ∈ coins, c.1 ∈ U) → Reachable U P (s.initGenesis coins timestamp).1
  | applyBlock {s : CoinStore} {block : BlockData} :
    Reachable U P s → (∀ c ∈ block.coins, c ∈ U) → P block → Reachable U P (s.applyBlock block).1
  | rollbackToBlock {s : CoinStore} {target : Int64} :
    Reachable U P s → Reachable U P (s.rollbackToBlock target).1
  | rollbackNBlocks {s : CoinStore} {n : UInt64} :
    Reachable U P s → Reachable U P (s.rollbackNBlocks n).1
  | restore {s source : CoinStore} {snapshot : CoinStoreSnapshot} :
    Reachable U P s → Reachable U P source → source.snapshot = .ok snapshot →
      Reachable U P (s.restore snapshot).1
  | reopen {s s' : CoinStore} {config : CoinStoreConfig} :
    Reachable U P s → CoinStore.withConfig config s.backend = .ok s' → Reachable U P s'
  | stateRoot {s : CoinStore} : Reachable U P s → Reachable U P s.stateRoot.2
  | addHint {s : CoinStore} {coinId : CoinId} {hint : Bytes} :
    Reachable U P s → Reachable U P (s.addHint coinId hint).1
  | removeHintsForCoins {s : CoinStore} {coinIds : List CoinId} :
    Reachable U P s → Reachable U P (s.removeHintsForCoins coinIds).1

namespace CoinStore

/-- A call other than a rollback or a restore. -/
inductive OtherCall : CoinStore → CoinStore → Prop
  | initGenesis {s : CoinStore} {coins : List (Coin × Bool)} {timestamp : UInt64} :
    OtherCall s (s.initGenesis coins timestamp).1
  | applyBlock {s : CoinStore} {block : BlockData} : OtherCall s (s.applyBlock block).1
  | reopen {s s' : CoinStore} {config : CoinStoreConfig} :
    withConfig config s.backend = .ok s' → OtherCall s s'
  | stateRoot {s : CoinStore} : OtherCall s s.stateRoot.2
  | addHint {s : CoinStore} {coinId : CoinId} {hint : Bytes} : OtherCall s (s.addHint coinId hint).1
  | removeHintsForCoins {s : CoinStore} {coinIds : List CoinId} :
    OtherCall s (s.removeHintsForCoins coinIds).1

end CoinStore

/-- **The states of a run** of blocks, rollbacks, restores of any snapshot and hint calls. -/
inductive Operated : CoinStore → Prop
  | new {config : CoinStoreConfig} {s : CoinStore} :
    CoinStore.withConfig config .fresh = .ok s → Operated s
  | call {s s' : CoinStore} : Operated s → CoinStore.OtherCall s s' → Operated s'
  | rollbackToBlock {s : CoinStore} {target : Int64} :
    Operated s → Operated (s.rollbackToBlock target).1
  | rollbackNBlocks {s : CoinStore} {n : UInt64} : Operated s → Operated (s.rollbackNBlocks n).1
  | restore {s : CoinStore} {snapshot : CoinStoreSnapshot} :
    Operated s → Operated (s.restore snapshot).1

/-- A restore of an own snapshot is a restore of a snapshot. -/
theorem Reachable.operated {U : Set Coin} {P : BlockData → Prop} {s : CoinStore}
    (h : Reachable U P s) : Operated s := by
  induction h with
  | new hopen => exact .new hopen
  | initGenesis _ _ ih => exact ih.call .initGenesis
  | applyBlock _ _ _ ih => exact ih.call .applyBlock
  | rollbackToBlock _ ih => exact ih.rollbackToBlock
  | rollbackNBlocks _ ih => exact ih.rollbackNBlocks
  | restore _ _ _ ih _ => exact ih.restore
  | reopen _ hopen ih => exact ih.call (.reopen hopen)
  | stateRoot _ ih => exact ih.call .stateRoot
  | addHint _ ih => exact ih.call .addHint
  | removeHintsForCoins _ ih => exact ih.call .removeHintsForCoins

/-- `bs` are accepted one after the other from `s`, and lead to `s'`. -/
inductive Accepted : CoinStore → List BlockData → CoinStore → Prop
  | nil {s : CoinStore} : Accepted s [] s
  | cons {s s₁ s' : CoinStore} {block : BlockData} {bs : List BlockData} {result : ApplyBlockResult} :
    s.applyBlock block = (s₁, .ok result) → Accepted s₁ bs s' → Accepted s (block :: bs) s'

theorem Accepted.single {s : CoinStore} {block : BlockData} (h : (s.applyBlock block).2.isOk = true) :
    Accepted s [block] (s.applyBlock block).1 := by
  cases hres : (s.applyBlock block).2 with
  | error e => simp [hres, Except.isOk, Except.toBool] at h
  | ok result => exact .cons (Prod.ext rfl hres) .nil

theorem Accepted.append {s s₁ s' : CoinStore} {bs bs' : List BlockData} (h : Accepted s bs s₁)
    (h' : Accepted s₁ bs' s') : Accepted s (bs ++ bs') s' := by
  induction h with
  | nil => exact h'
  | cons happ _ ih => exact .cons happ (ih h')

theorem Accepted.exists_result {s s' : CoinStore} {block : BlockData} (h : Accepted s [block] s') :
    ∃ result, s.applyBlock block = (s', .ok result) := by
  cases h with
  | cons happ hrest =>
    cases hrest
    exact ⟨_, happ⟩

theorem Accepted.reachable {U : Set Coin} {P : BlockData → Prop} {s s' : CoinStore}
    {bs : List BlockData} (hacc : Accepted s bs s') (h : Reachable U P s)
    (hbs : ∀ b ∈ bs, P b ∧ ∀ c ∈ b.coins, c ∈ U) : Reachable U P s' := by
  induction hacc with
  | nil => exact h
  | cons happ _ ih =>
    refine ih ?_ fun b hb => hbs b (.tail _ hb)
    have hb := hbs _ (.head _)
    have hr := h.applyBlock hb.2 hb.1
    rwa [happ] at hr

end DigCoinstore
