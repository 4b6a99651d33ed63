/-
# Tokens in one place at a time

A fixed set of tokens circulates between a store, the hand of a sender, a queue and
the hand of a receiver. Nothing creates a token and nothing destroys one: whatever
the order of the transfers, the places together hold the tokens that were there at
the start, each of them once.
-/

import Mathlib.Data.List.Perm.Basic

namespace Orderbook.Math

universe u

variable {α : Type u}

/-- The places where a token can be. A hand holds one token at most. -/
structure Custody (α : Type u) where
  store : List α
  sender : Option α
  queue : List α
  receiver : Option α
  deriving DecidableEq, Repr

namespace Custody

/-- The tokens of all places. -/
def tokens (custody : Custody α) : List α :=
  custody.store ++ (custody.sender.toList ++ (custody.queue ++ custody.receiver.toList))

theorem mem_tokens {custody : Custody α} {token : α} :
    token ∈ custody.tokens ↔
      token ∈ custody.store ∨ custody.sender = some token ∨ token ∈ custody.queue ∨
        custody.receiver = some token := by
  simp [tokens]

/-- One token moves on. -/
inductive Transfer : Custody α → Custody α → Prop
  | take (token : α) (store queue : List α) (receiver : Option α) :
      Transfer ⟨token :: store, none, queue, receiver⟩ ⟨store, some token, queue, receiver⟩
  | putBack (token : α) (store queue : List α) (receiver : Option α) :
      Transfer ⟨store, some token, queue, receiver⟩ ⟨token :: store, none, queue, receiver⟩
  | send (token : α) (store queue : List α) (receiver : Option α) :
      Transfer ⟨store, some token, queue, receiver⟩ ⟨store, none, queue ++ [token], receiver⟩
  | deliver (token : α) (store queue : List α) (sender : Option α) :
      Transfer ⟨store, sender, token :: queue, none⟩ ⟨store, sender, queue, some token⟩
  | finish (token : α) (store queue : List α) (sender : Option α) :
      Transfer ⟨store, sender, queue, some token⟩ ⟨token :: store, sender, queue, none⟩

/-- A transfer keeps the tokens. -/
theorem Transfer.tokens_perm [DecidableEq α] {custody custody' : Custody α}
    (htransfer : Transfer custody custody') : custody'.tokens.Perm custody.tokens := by
  rw [List.perm_iff_count]
  intro token
  cases htransfer <;>
    simp only [tokens, Option.toList_some, Option.toList_none, List.count_append,
      List.count_cons, List.count_nil] <;> omega

variable {custody : Custody α}

/-- When the places hold every token once, the hand of the sender holds none that is
somewhere else. -/
theorem sender_of_nodup {token : α} (hnodup : custody.tokens.Nodup)
    (hsender : custody.sender = some token) :
    token ∉ custody.store ∧ token ∉ custody.queue ∧ custody.receiver ≠ some token := by
  rw [tokens, hsender, Option.toList_some, List.singleton_append] at hnodup
  have hothers := (List.nodup_cons.mp ((List.perm_middle).nodup_iff.mp hnodup)).1
  simpa [and_assoc] using hothers

/-- The same of the hand of the receiver. -/
theorem receiver_of_nodup {token : α} (hnodup : custody.tokens.Nodup)
    (hreceiver : custody.receiver = some token) :
    token ∉ custody.store ∧ token ∉ custody.queue ∧ custody.sender ≠ some token := by
  rw [tokens, hreceiver, Option.toList_some, ← List.append_assoc, ← List.append_assoc] at hnodup
  have hothers := (List.nodup_cons.mp
    ((List.perm_append_singleton token _).nodup_iff.mp hnodup)).1
  simp only [List.mem_append, Option.mem_toList, not_or] at hothers
  exact ⟨hothers.1.1, hothers.2, hothers.1.2⟩

/-- The same of the queue. -/
theorem queue_of_nodup {token : α} (hnodup : custody.tokens.Nodup)
    (hqueue : token ∈ custody.queue) :
    token ∉ custody.store ∧ custody.sender ≠ some token ∧ custody.receiver ≠ some token := by
  refine ⟨fun hstore => ?_, fun hsender => (sender_of_nodup hnodup hsender).2.1 hqueue,
    fun hreceiver => (receiver_of_nodup hnodup hreceiver).2.1 hqueue⟩
  rw [tokens] at hnodup
  exact (List.nodup_append.mp hnodup).2.2 token hstore token
    (List.mem_append_right _ (List.mem_append_left _ hqueue)) rfl

/-- How many tokens the store holds. -/
theorem length_store_of_perm {all : List α} (hperm : custody.tokens.Perm all) :
    all.length = custody.store.length + custody.sender.toList.length + custody.queue.length +
      custody.receiver.toList.length := by
  rw [← hperm.length_eq, tokens]
  simp only [List.length_append]
  omega

end Custody

end Orderbook.Math
