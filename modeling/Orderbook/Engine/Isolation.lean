/-
# Symbols do not interfere

All symbols share one arena and one order map, and in the exchange they share one
list. A message only reaches orders of one symbol: an add names it, and a message
about a reference reaches the symbol that the reference was introduced to,
directly or through replaces.

On the exchange this is a frame argument. The orders of one symbol can be looked
at alone, and messages of other symbols leave them as they are. Through the
refinement the same holds for the engine, although slots and map entries differ
between a run of all messages and a run of the messages of one symbol.
-/

import Orderbook.Engine.Refinement

namespace Orderbook

open Orderbook.Math

/-- The symbol each reference was introduced to. -/
abbrev Homes := UInt64 → Option UInt16

/-- No reference was introduced yet. -/
def unsettled : Homes := fun _ => none

namespace ItchMessage

/-- A message introduces a reference to its own symbol, or to the symbol of the
original. -/
def settle (message : ItchMessage) (homes : Homes) : Homes :=
  match message with
  | .add locate order =>
      if ValidSide order.buySellIndicator then
        fun ref => if ref = order.ref then some locate else homes ref
      else homes
  | .replace message =>
      fun ref =>
        if ref = message.newOrderRef then homes message.originalOrderRef else homes ref
  | _ => homes

/-- The symbol a message belongs to. -/
def symbol (message : ItchMessage) (homes : Homes) : Option UInt16 :=
  match message with
  | .add locate _ => some locate
  | .delete message =>
      homes (joinRef message.orderReferenceNumberHigh message.orderReferenceNumberLow)
  | .executed message => homes message.orderRef
  | .replace message => homes message.originalOrderRef
  | .ignored => none

end ItchMessage

/-- Which of the messages belong to a symbol. -/
def symbolMask (locate : UInt16) : Homes → List ItchMessage → List Bool
  | _, [] => []
  | homes, message :: messages =>
      decide (message.symbol homes = some locate) ::
        symbolMask locate (message.settle homes) messages

theorem settle_of_notMem {message : ItchMessage} {homes : Homes} {ref : UInt64}
    (hnew : ref ∉ message.introduces) : message.settle homes ref = homes ref := by
  cases message with
  | add locate order =>
      by_cases hside : ValidSide order.buySellIndicator
      · rw [ItchMessage.introduces, if_pos hside, List.mem_singleton] at hnew
        rw [ItchMessage.settle, if_pos hside, if_neg hnew]
      · rw [ItchMessage.settle, if_neg hside]
  | replace message =>
      rw [ItchMessage.introduces, List.mem_singleton] at hnew
      exact if_neg hnew
  | delete _ => rfl
  | executed _ => rfl
  | ignored => rfl

namespace Exchange

variable {exchange : Exchange} {locate : UInt16}

/-- The exchange of one symbol. -/
def only (locate : UInt16) (exchange : Exchange) : Exchange where
  orders := exchange.orders.filter fun order => order.locate = locate

theorem only_remove (ref : UInt64) :
    (exchange.remove ref).only locate = (exchange.only locate).remove ref := by
  unfold only remove
  rw [Exchange.mk.injEq, List.filter_filter, List.filter_filter]
  apply List.filter_congr
  intro order _
  exact Bool.and_comm _ _

theorem only_subtract (ref : UInt64) (amount : ℕ) :
    (exchange.subtract ref amount).only locate = (exchange.only locate).subtract ref amount := by
  unfold only subtract
  rw [Exchange.mk.injEq, List.filter_map]
  congr 1
  apply List.filter_congr
  intro order _
  rw [Function.comp_apply]
  split <;> rfl

theorem Distinct.only (hdistinct : exchange.Distinct) : (exchange.only locate).Distinct :=
  hdistinct.sublist (List.filter_sublist.map _)

/-- An order is found in the exchange of its own symbol. -/
theorem find_only (hdistinct : exchange.Distinct) {ref : UInt64} {order : ExchangeOrder}
    (hfind : exchange.find ref = some order) (hhere : order.locate = locate) :
    (exchange.only locate).find ref = some order := by
  obtain ⟨hmem, rfl⟩ := mem_of_find hfind
  have honly : order ∈ (exchange.only locate).orders :=
    List.mem_filter.mpr ⟨hmem, decide_eq_true hhere⟩
  exact hdistinct.only.find_eq_some honly

/-- It is found in no other. -/
theorem find_only_eq_none (hdistinct : exchange.Distinct) {ref : UInt64}
    (hother : ∀ order, exchange.find ref = some order → order.locate ≠ locate) :
    (exchange.only locate).find ref = none := by
  cases hfind : (exchange.only locate).find ref with
  | none => rfl
  | some order =>
      obtain ⟨hmem, rfl⟩ := mem_of_find hfind
      obtain ⟨hmem, hhere⟩ := List.mem_filter.mp hmem
      exact absurd (of_decide_eq_true hhere) (hother order (hdistinct.find_eq_some hmem))

theorem remove_of_find_eq_none {ref : UInt64} (hfind : exchange.find ref = none) :
    exchange.remove ref = exchange := by
  have hkeep : exchange.orders.filter (fun order => decide (order.ref ≠ ref)) =
      exchange.orders := by
    rw [List.filter_eq_self]
    intro order hmem
    have hne := List.find?_eq_none.mp hfind order hmem
    simpa using hne
  unfold remove
  rw [hkeep]

theorem subtract_of_find_eq_none {ref : UInt64} (hfind : exchange.find ref = none)
    (amount : ℕ) : exchange.subtract ref amount = exchange := by
  have hkeep : exchange.orders.map (fun order => if order.ref = ref then
      { order with shares := order.shares - amount } else order) = exchange.orders := by
    conv_rhs => rw [← List.map_id exchange.orders]
    apply List.map_congr_left
    intro order hmem
    have hne := List.find?_eq_none.mp hfind order hmem
    exact if_neg (by simpa using hne)
  unfold subtract
  rw [hkeep]

/-- An order of the symbol is matched against the orders of the symbol. -/
theorem matched_only {order : ExchangeOrder} (horder : order.locate = locate) :
    (exchange.only locate).matched order =
      { exchange.matched order with
        items := (exchange.matched order).items.filter fun resting =>
          resting.locate = locate } := by
  have hkeep : ∀ resting, order.rules.eligible resting = true →
      decide (resting.locate = locate) = true := by
    intro resting heligible
    exact decide_eq_true ((of_decide_eq_true heligible).1.trans horder)
  exact Rules.sweep_filter hkeep (fun _ _ => rfl)
    { items := exchange.orders, demand := order.shares }

theorem submit_only {order : ExchangeOrder} (horder : order.locate = locate) :
    (exchange.submit order).only locate = (exchange.only locate).submit order := by
  unfold submit
  rw [matched_only horder]
  unfold only
  dsimp only
  split
  · rfl
  · simp [horder]

/-- An order of another symbol leaves the symbol alone. -/
theorem submit_only_of_ne (hdistinct : exchange.Distinct) {order : ExchangeOrder}
    (horder : order.locate ≠ locate) :
    (exchange.submit order).only locate = exchange.only locate := by
  have hkeep : ∀ resting : ExchangeOrder, decide (resting.locate = locate) = true →
      order.rules.eligible resting = false := by
    intro resting hhere
    apply decide_eq_false
    intro heligible
    exact horder (heligible.1.symm.trans (of_decide_eq_true hhere))
  have hrules : order.rules.Distinct
      ({ items := exchange.orders, demand := order.shares } : Sweep ExchangeOrder).items :=
    hdistinct
  have hsame : (exchange.matched order).items.filter
      (fun resting => decide (resting.locate = locate)) =
        exchange.orders.filter fun resting => decide (resting.locate = locate) :=
    Rules.filter_sweep_of_not_eligible order.proper_rules hkeep (fun _ _ => rfl) hrules
  unfold submit only
  dsimp only
  split
  · rw [hsame]
  · rw [List.filter_append, hsame]
    simp [horder]

/-- The orders carry the symbol their references were introduced to, and their
references were seen before. -/
structure Settled (exchange : Exchange) (homes : Homes) (seen : List UInt64) : Prop where
  distinct : exchange.Distinct
  seen : ∀ order ∈ exchange.orders, order.ref ∈ seen
  home : ∀ order ∈ exchange.orders, homes order.ref = some order.locate

variable {homes : Homes} {seen : List UInt64}

theorem settled_empty : Settled {} unsettled [] := ⟨List.nodup_nil, by simp, by simp⟩

theorem Settled.home_of_find (hsettled : exchange.Settled homes seen) {ref : UInt64}
    {order : ExchangeOrder} (hfind : exchange.find ref = some order) :
    homes ref = some order.locate := by
  obtain ⟨hmem, rfl⟩ := mem_of_find hfind
  exact hsettled.home order hmem

/-- A message of the symbol does to the symbol what it does alone. -/
theorem Settled.step_only (hsettled : exchange.Settled homes seen) {message : ItchMessage}
    (hsymbol : message.symbol homes = some locate) :
    ((exchange.step message).1.only locate, (exchange.step message).2) =
      (exchange.only locate).step message := by
  have hdistinct := hsettled.distinct
  have hhere : ∀ {ref order}, homes ref = some locate → exchange.find ref = some order →
      order.locate = locate := by
    intro ref order hhome hfind
    rw [hsettled.home_of_find hfind, Option.some.injEq] at hhome
    exact hhome
  have hnone : ∀ {ref}, exchange.find ref = none → (exchange.only locate).find ref = none :=
    fun hfind => find_only_eq_none hdistinct (by simp [hfind])
  cases message with
  | add other order =>
      obtain rfl : other = locate := Option.some.inj hsymbol
      simp only [step]
      cases Side.ofByte order.buySellIndicator with
      | none => rfl
      | some side =>
          have hlocate : (added other order side).locate = other := rfl
          simp only [submit_only hlocate, matched_only hlocate]
  | delete message =>
      simp only [step]
      cases hfind : exchange.find _ with
      | none => rw [hnone hfind]
      | some order =>
          rw [find_only hdistinct hfind (hhere hsymbol hfind)]
          simp only [only_remove]
  | executed message =>
      simp only [step]
      cases hfind : exchange.find _ with
      | none => rw [hnone hfind]
      | some order =>
          rw [find_only hdistinct hfind (hhere hsymbol hfind)]
          dsimp only
          split
          · rw [only_remove]
          · rw [only_subtract]
  | replace message =>
      simp only [step]
      cases hfind : exchange.find _ with
      | none => rw [hnone hfind]
      | some order =>
          have hlocate := hhere hsymbol hfind
          rw [find_only hdistinct hfind hlocate]
          have hreplacement : (replacement message order).locate = locate := hlocate
          simp only [submit_only hreplacement, ← only_remove, matched_only hreplacement]
  | ignored => cases hsymbol

/-- A message of another symbol leaves the symbol alone. -/
theorem Settled.step_only_of_ne (hsettled : exchange.Settled homes seen)
    {message : ItchMessage} (hsymbol : message.symbol homes ≠ some locate) :
    (exchange.step message).1.only locate = exchange.only locate := by
  have hdistinct := hsettled.distinct
  have hother : ∀ {ref order}, homes ref ≠ some locate → exchange.find ref = some order →
      order.locate ≠ locate := by
    rintro ref order hhome hfind rfl
    exact hhome (hsettled.home_of_find hfind)
  have hnone : ∀ {ref}, homes ref ≠ some locate → (exchange.only locate).find ref = none :=
    fun hhome => find_only_eq_none hdistinct fun order hfind => hother hhome hfind
  cases message with
  | add other order =>
      have hne : other ≠ locate := fun h => hsymbol (congrArg some h)
      simp only [step]
      cases Side.ofByte order.buySellIndicator with
      | none => rfl
      | some side => exact submit_only_of_ne hdistinct hne
  | delete message =>
      simp only [step]
      cases exchange.find _ with
      | none => rfl
      | some order =>
          dsimp only
          rw [only_remove, remove_of_find_eq_none (hnone hsymbol)]
  | executed message =>
      simp only [step]
      cases exchange.find _ with
      | none => rfl
      | some order =>
          dsimp only
          split
          · rw [only_remove, remove_of_find_eq_none (hnone hsymbol)]
          · rw [only_subtract, subtract_of_find_eq_none (hnone hsymbol)]
  | replace message =>
      simp only [step]
      cases hfind : exchange.find _ with
      | none => rfl
      | some order =>
          have horder : order.locate ≠ locate := hother hsymbol hfind
          have hne : (replacement message order).locate ≠ locate := horder
          dsimp only
          rw [submit_only_of_ne (hdistinct.remove _) hne, only_remove,
            remove_of_find_eq_none (hnone hsymbol)]
  | ignored => rfl

/-- Orders that were there before keep their symbols. -/
theorem Settled.of_subset (hsettled : exchange.Settled homes seen) {next : Exchange}
    {homes' : Homes} {seen' : List UInt64} (hdistinct : next.Distinct)
    (hsame : ∀ ref ∈ seen, homes' ref = homes ref) (hsubset : seen ⊆ seen')
    (hbefore : ∀ order ∈ next.orders, ∃ before ∈ exchange.orders,
      order.ref = before.ref ∧ order.locate = before.locate) :
    next.Settled homes' seen' := by
  have hfacts : ∀ order ∈ next.orders,
      order.ref ∈ seen ∧ homes' order.ref = some order.locate := by
    intro order hmem
    obtain ⟨before, hmem', href, hlocate⟩ := hbefore order hmem
    have hseen := hsettled.seen before hmem'
    rw [href, hlocate]
    exact ⟨hseen, (hsame _ hseen).trans (hsettled.home before hmem')⟩
  exact ⟨hdistinct, fun order hmem => hsubset (hfacts order hmem).1,
    fun order hmem => (hfacts order hmem).2⟩

theorem Settled.remove (hsettled : exchange.Settled homes seen) (ref : UInt64) :
    (exchange.remove ref).Settled homes seen :=
  hsettled.of_subset (hsettled.distinct.remove ref) (fun _ _ => rfl) (List.Subset.refl _)
    fun order hmem => ⟨order, (List.mem_filter.mp hmem).1, rfl, rfl⟩

theorem Settled.subtract (hsettled : exchange.Settled homes seen) (ref : UInt64) (amount : ℕ) :
    (exchange.subtract ref amount).Settled homes seen := by
  apply hsettled.of_subset (hsettled.distinct.subtract ref amount) (fun _ _ => rfl)
    (List.Subset.refl _)
  intro order hmem
  obtain ⟨before, hmem', rfl⟩ := List.mem_map.mp hmem
  refine ⟨before, hmem', ?_⟩
  split <;> exact ⟨rfl, rfl⟩

theorem Settled.submit (hsettled : exchange.Settled homes seen) {order : ExchangeOrder}
    {homes' : Homes} (hnew : order.ref ∉ seen) (hsame : ∀ ref ∈ seen, homes' ref = homes ref)
    (hhome : homes' order.ref = some order.locate) :
    (exchange.submit order).Settled homes' (seen ++ [order.ref]) := by
  have hrules : order.rules.Distinct
      ({ items := exchange.orders, demand := order.shares } : Sweep ExchangeOrder).items :=
    hsettled.distinct
  have hdistinct : Distinct ⟨(exchange.matched order).items⟩ := hrules.sweep order.proper_rules
  have hitems : Settled ⟨(exchange.matched order).items⟩ homes' seen := by
    apply hsettled.of_subset hdistinct hsame (List.Subset.refl _)
    intro left hmem
    let view : ExchangeOrder → UInt64 × UInt16 := fun x => (x.ref, x.locate)
    have hview : ∀ amount x, view (order.rules.reduce amount x) = view x := fun _ _ => rfl
    obtain ⟨before, hmem', hsame⟩ := Rules.exists_mem_of_mem_sweep hview hmem
    exact ⟨before, hmem', (Prod.mk.inj hsame).1, (Prod.mk.inj hsame).2⟩
  unfold Exchange.submit
  split
  · exact ⟨hitems.distinct, fun left hmem => List.mem_append_left _ (hitems.seen left hmem),
      hitems.home⟩
  · constructor
    · unfold Distinct
      rw [List.map_append, List.nodup_append]
      refine ⟨hitems.distinct, List.nodup_singleton _, ?_⟩
      rintro ref hleft other hother rfl
      obtain ⟨left, hmem, rfl⟩ := List.mem_map.mp hleft
      obtain hown : left.ref = order.ref := List.mem_singleton.mp hother
      exact hnew (hown ▸ hitems.seen left hmem)
    · intro left hmem
      rcases List.mem_append.mp hmem with hold | hlast
      · exact List.mem_append_left _ (hitems.seen left hold)
      · obtain rfl := List.mem_singleton.mp hlast
        exact List.mem_append_right _ (List.mem_singleton.mpr rfl)
    · intro left hmem
      rcases List.mem_append.mp hmem with hold | hlast
      · exact hitems.home left hold
      · obtain rfl := List.mem_singleton.mp hlast
        exact hhome

/-- Every message keeps references and symbols together. -/
theorem Settled.step (hsettled : exchange.Settled homes seen) {message : ItchMessage}
    (hnew : ∀ ref ∈ message.introduces, ref ∉ seen) :
    (exchange.step message).1.Settled (message.settle homes) (seen ++ message.introduces) := by
  have hsame : ∀ ref ∈ seen, message.settle homes ref = homes ref := fun ref hseen =>
    settle_of_notMem fun hagain => hnew ref hagain hseen
  have hkept : ∀ {next : Exchange}, next.Settled homes seen →
      next.Settled (message.settle homes) (seen ++ message.introduces) := by
    intro next hnext
    exact hnext.of_subset hnext.distinct hsame (List.subset_append_left _ _)
      fun order hmem => ⟨order, hmem, rfl, rfl⟩
  cases message with
  | add locate order =>
      simp only [Exchange.step]
      cases hside : Side.ofByte order.buySellIndicator with
      | none => exact hkept hsettled
      | some side =>
          have hvalid : ValidSide order.buySellIndicator := by
            by_contra hinvalid
            rw [Side.ofByte_of_not_valid hinvalid] at hside
            cases hside
          have hintroduces : (ItchMessage.add locate order).introduces = [order.ref] :=
            if_pos hvalid
          rw [hintroduces] at hnew ⊢
          have hfresh : (added locate order side).ref ∉ seen :=
            hnew _ (List.mem_singleton.mpr rfl)
          apply hsettled.submit hfresh hsame
          rw [ItchMessage.settle, if_pos hvalid]
          exact if_pos rfl
  | delete message =>
      simp only [Exchange.step]
      cases exchange.find _ with
      | none => exact hkept hsettled
      | some order => exact hkept (hsettled.remove _)
  | executed message =>
      simp only [Exchange.step]
      cases exchange.find _ with
      | none => exact hkept hsettled
      | some order =>
          dsimp only
          split
          · exact hkept (hsettled.remove _)
          · exact hkept (hsettled.subtract _ _)
  | replace message =>
      simp only [Exchange.step]
      cases hfind : exchange.find _ with
      | none => exact hkept hsettled
      | some order =>
          have hfresh : (replacement message order).ref ∉ seen :=
            hnew _ (List.mem_singleton.mpr rfl)
          apply (hsettled.remove _).submit hfresh hsame
          have hhome : homes message.originalOrderRef = some order.locate :=
            hsettled.home_of_find hfind
          exact (if_pos rfl).trans hhome
  | ignored => exact hkept hsettled

/-- Messages of a symbol, run alone, report what they report among all messages,
and leave the orders of the symbol that all messages leave. -/
theorem Settled.run_only (hsettled : exchange.Settled homes seen) {messages : List ItchMessage}
    (hfresh : (seen ++ introduced messages).Nodup) :
    reports (select (symbolMask locate homes messages) messages) (exchange.only locate) =
        select (symbolMask locate homes messages) (reports messages exchange) ∧
      (select (symbolMask locate homes messages) messages).foldl
          (fun exchange message => (exchange.step message).1) (exchange.only locate) =
        (messages.foldl (fun exchange message => (exchange.step message).1)
          exchange).only locate := by
  induction messages generalizing exchange homes seen with
  | nil => exact ⟨rfl, rfl⟩
  | cons message messages ih =>
      have hsplit : introduced (message :: messages) =
          message.introduces ++ introduced messages := rfl
      rw [hsplit, ← List.append_assoc] at hfresh
      have hnew : ∀ ref ∈ message.introduces, ref ∉ seen := by
        intro ref hagain hseen
        have hnodup := (List.nodup_append.mp hfresh).1
        exact (List.nodup_append.mp hnodup).2.2 ref hseen ref hagain rfl
      obtain ⟨hreports, hfinal⟩ := ih (hsettled.step hnew) hfresh
      simp only [symbolMask, select, reports, List.foldl_cons]
      by_cases hsymbol : message.symbol homes = some locate
      · have hstep := hsettled.step_only hsymbol
        rw [if_pos (decide_eq_true hsymbol), if_pos (decide_eq_true hsymbol)]
        rw [Prod.ext_iff] at hstep
        simp only [reports, List.foldl_cons, ← hstep.1, ← hstep.2, hreports, hfinal, and_self]
      · have hstep := hsettled.step_only_of_ne hsymbol
        rw [hstep] at hreports hfinal
        simp only [hsymbol, decide_false, Bool.false_eq_true, if_false]
        exact ⟨hreports, hfinal⟩

theorem book_only (exchange : Exchange) (locate : UInt16) (side : Side) :
    (exchange.only locate).book locate side = exchange.book locate side := by
  unfold book only
  rw [List.filter_filter]
  apply List.filter_congr
  intro order _
  by_cases hhere : order.locate = locate
  · simp [hhere]
  · simp [hhere]

end Exchange

/-! ## Runs -/

/-- The output buffers that hold a report. -/
def Report.buffers (report : Report) : EngineScratch where
  removedRefs := report.removed
  executedOrders := report.executed.map fun record => .ofMatch record.1 (UInt32.ofNat record.2)

theorem Report.buffers_ofMatch (fills : List Fill) :
    (Report.ofMatch fills).buffers =
      { removedRefs := filledRefs fills, executedOrders := executedRecords fills } := by
  unfold Report.buffers Report.ofMatch Report.ofFills filledRefs executedRecords
  rw [EngineScratch.mk.injEq, List.filter_map]
  simp only [List.map_map]
  exact ⟨rfl, rfl⟩

/-- A call that is matched: an add with a valid side, or a replace whose original
is found. -/
def Transition.Matched (transition : Transition) : Prop :=
  match transition.message with
  | .add _ order => ValidSide order.buySellIndicator
  | .replace message => transition.before.locationOf message.originalOrderRef ≠ none
  | _ => False

/-- The exchange reports exactly on the calls that are matched, and the buffers
hold nothing but its report. -/
def Transition.Answers (transition : Transition) (report : Option Report) : Prop :=
  (transition.Matched ↔ report.isSome) ∧
    ∀ matched, report = some matched → transition.outcome.scratch = matched.buffers

/-- The deliveries of one symbol, given the symbols of the references so far. -/
def symbolStream (locate : UInt16) (homes : Homes) (stream : List Delivery) : List Delivery :=
  select (symbolMask locate homes (stream.map Delivery.decoded)) stream

theorem decoded_symbolStream (locate : UInt16) (homes : Homes) (stream : List Delivery) :
    (symbolStream locate homes stream).map Delivery.decoded =
      select (symbolMask locate homes (stream.map Delivery.decoded))
        (stream.map Delivery.decoded) :=
  (select_map _ _ _).symm

/-- A prefix of the deliveries of a symbol belongs to a prefix of all deliveries. -/
theorem exists_prefix_of_symbolStream {locate : UInt16} {homes : Homes}
    {stream past : List Delivery} (hpast : past <+: symbolStream locate homes stream) :
    ∃ before, before <+: stream ∧ symbolStream locate homes before = past := by
  induction stream generalizing homes past with
  | nil => exact ⟨[], List.prefix_refl _, (List.prefix_nil.mp hpast).symm⟩
  | cons delivery stream ih =>
      have hcons : ∀ rest, symbolStream locate homes (delivery :: rest) =
          if delivery.decoded.symbol homes = some locate then
            delivery :: symbolStream locate (delivery.decoded.settle homes) rest
          else symbolStream locate (delivery.decoded.settle homes) rest := by
        intro rest
        simp only [symbolStream, List.map_cons, symbolMask, select, decide_eq_true_eq]
      rw [hcons] at hpast
      split at hpast
      · rename_i hsymbol
        cases past with
        | nil => exact ⟨[], List.nil_prefix, rfl⟩
        | cons first past =>
            rw [List.cons_prefix_cons] at hpast
            obtain ⟨before, hbefore, hsame⟩ := ih hpast.2
            refine ⟨delivery :: before, (List.cons_prefix_cons).mpr ⟨rfl, hbefore⟩, ?_⟩
            rw [hcons, if_pos hsymbol, hsame, hpast.1]
      · rename_i hsymbol
        obtain ⟨before, hbefore, hsame⟩ := ih hpast
        refine ⟨delivery :: before, (List.cons_prefix_cons).mpr ⟨rfl, hbefore⟩, ?_⟩
        rw [hcons, if_neg hsymbol, hsame]

theorem freshRefs_symbolStream {stream : List Delivery}
    (hfresh : FreshRefs (stream.map Delivery.decoded)) (locate : UInt16) (homes : Homes) :
    FreshRefs ((symbolStream locate homes stream).map Delivery.decoded) := by
  have hsublist : (introduced ((symbolStream locate homes stream).map Delivery.decoded)).Sublist
      (introduced (stream.map Delivery.decoded)) :=
    ((select_sublist _ _).map _).flatMap _
  exact ⟨hfresh.nodup.sublist hsublist, fun ref href => hfresh.listed ref (hsublist.subset href)⟩

namespace MatchingEngine

variable {stream : List Delivery} {engine : MatchingEngine} {market : Market}
  {trace : List Transition}

/-- The market reports fills exactly on the calls that are matched. -/
theorem Represents.matched_iff (hrep : engine.Represents market)
    (hroom : engine.entries < 2 ^ mapBits) (slot : UInt32) (message : ItchMessage)
    (outcome : Outcome) :
    Transition.Matched ⟨engine, message, outcome⟩ ↔ (market.step slot message).2.isSome := by
  have hchange := market.step_change slot message
  generalize market.step slot message = result at hchange ⊢
  cases hchange with
  | idle hidle =>
      cases message with
      | add locate order => exact iff_of_false hidle Bool.false_ne_true
      | replace message =>
          have hnone := hrep.locationOf_eq_none hroom hidle
          exact iff_of_false (fun hmatched => hmatched hnone) Bool.false_ne_true
      | _ => exact iff_of_false id Bool.false_ne_true
  | submitted locate order hside => exact iff_of_true hside rfl
  | withdrawn _ hmessage =>
      cases message with
      | delete _ => exact iff_of_false id Bool.false_ne_true
      | executed _ => exact iff_of_false id Bool.false_ne_true
      | _ => cases hmessage
  | reduced _ _ _ => exact iff_of_false id Bool.false_ne_true
  | replaced message hlookup =>
      have hsome := (hrep.locationOf_eq_some hroom hlookup).1
      refine iff_of_true ?_ rfl
      show engine.locationOf message.originalOrderRef ≠ none
      rw [hsome]
      exact Option.some_ne_none _

/-- The call answers as the exchange does. -/
theorem Processes.answers {message : ItchMessage} {outcome : Outcome} {seen : List UInt64}
    (hprocesses : engine.Processes market message outcome) (hrep : engine.Represents market)
    (hroom : engine.entries < 2 ^ mapBits) (hlisted : market.Listed seen) :
    Transition.Answers ⟨engine, message, outcome⟩ (market.toExchange.step message).2 := by
  rw [hlisted.step_toExchange hrep.sound 0]
  constructor
  · rw [hrep.matched_iff hroom 0, Option.isSome_map]
  · intro matched hmatched
    obtain ⟨fills, hfills, rfl⟩ := Option.map_eq_some_iff.mp hmatched
    rw [Report.buffers_ofMatch]
    exact hprocesses.reports 0 fills hfills

/-- The calls of a run are the messages delivered. -/
theorem JointRun.messages_eq (hrun : JointRun stream engine market trace) :
    trace.map Transition.message = stream.map Delivery.decoded := by
  induction hrun with
  | start => rfl
  | step delivery slot outcome _ _ _ _ ih => simp [ih]

/-- Two calls that answer to the same report. -/
def SameAnswer (transition transition' : Transition) : Prop :=
  (transition.Matched ↔ transition'.Matched) ∧
    (transition.Matched → transition.outcome.scratch = transition'.outcome.scratch)

theorem sameAnswer_of_answers {transition transition' : Transition} {report : Option Report}
    (hanswers : transition.Answers report) (hanswers' : transition'.Answers report) :
    SameAnswer transition transition' := by
  refine ⟨hanswers.1.trans hanswers'.1.symm, fun hmatched => ?_⟩
  obtain ⟨matched, hreport⟩ := Option.isSome_iff_exists.mp (hanswers.1.mp hmatched)
  rw [hanswers.2 matched hreport, hanswers'.2 matched hreport]

theorem forall₂_sameAnswer {traces traces' : List Transition} {reports : List (Option Report)}
    (hanswers : List.Forall₂ Transition.Answers traces reports)
    (hanswers' : List.Forall₂ Transition.Answers traces' reports) :
    List.Forall₂ SameAnswer traces traces' := by
  induction hanswers generalizing traces' with
  | nil =>
      cases hanswers'
      exact .nil
  | cons hhead _ ih =>
      cases hanswers' with
      | cons hhead' htail' => exact .cons (sameAnswer_of_answers hhead hhead') (ih htail')

/-- The messages of a symbol, run alone on the exchange. -/
theorem after_symbolStream (hfresh : FreshRefs (stream.map Delivery.decoded))
    (locate : UInt16) :
    Exchange.reports ((symbolStream locate unsettled stream).map Delivery.decoded) {} =
        select (symbolMask locate unsettled (stream.map Delivery.decoded))
          (Exchange.reports (stream.map Delivery.decoded) {}) ∧
      Exchange.after ((symbolStream locate unsettled stream).map Delivery.decoded) =
        (Exchange.after (stream.map Delivery.decoded)).only locate := by
  have hnodup : ([] ++ introduced (stream.map Delivery.decoded)).Nodup := hfresh.nodup
  rw [decoded_symbolStream]
  exact Exchange.settled_empty.run_only hnodup

/-- A run of one symbol keeps below the bound that the whole run keeps below. -/
theorem liveBelow_symbolStream (hfresh : FreshRefs (stream.map Delivery.decoded))
    (hlive : LiveBelow stream) (locate : UInt16) :
    LiveBelow (symbolStream locate unsettled stream) := by
  apply liveBelow_of_live_lt
  intro past hpast engine market trace hrun
  obtain ⟨before, hbefore, rfl⟩ := exists_prefix_of_symbolStream hpast
  have hfresh := hfresh.of_prefix (hbefore.map Delivery.decoded)
  have hlive := hlive.of_prefix hbefore
  obtain ⟨_, whole, _, hwhole⟩ := hlive.exists_jointRun
  have hpart := hrun.toExchange_eq (freshRefs_symbolStream hfresh locate unsettled)
  rw [(after_symbolStream hfresh locate).2, ← hwhole.toExchange_eq hfresh] at hpart
  have hle : market.live.length ≤ whole.live.length := by
    calc
      market.live.length = market.toExchange.orders.length := (List.length_map _).symm
      _ = (whole.toExchange.only locate).orders.length := by rw [hpart]
      _ ≤ whole.toExchange.orders.length := List.length_filter_le _ _
      _ = whole.live.length := List.length_map _
  exact Nat.lt_of_le_of_lt hle (hwhole.length_live_lt hlive)

/-- In every run with fresh references and room for the live orders, and for every
symbol: the messages of the symbol, run alone, are matched and answered as they are
among all messages, and they leave the symbol's book with the same orders, every
price in the same order of arrival. -/
theorem symbols_isolated (hfresh : FreshRefs (stream.map Delivery.decoded))
    (hlive : LiveBelow stream) (locate : UInt16) :
    ∃ engine trace engine' trace', Reached stream engine trace ∧
      Reached (symbolStream locate unsettled stream) engine' trace' ∧
      (select (symbolMask locate unsettled (stream.map Delivery.decoded)) trace).map
          Transition.message = trace'.map Transition.message ∧
      List.Forall₂ SameAnswer
        (select (symbolMask locate unsettled (stream.map Delivery.decoded)) trace) trace' ∧
      ∀ side, (engine.book locate side).Perm (engine'.book locate side) ∧
        ∀ price, engine.priceQueue locate side price =
          engine'.priceQueue locate side price := by
  have hfresh' := freshRefs_symbolStream hfresh locate unsettled
  have hlive' := liveBelow_symbolStream hfresh hlive locate
  obtain ⟨engine, market, trace, hrun⟩ := hlive.exists_jointRun
  obtain ⟨engine', market', trace', hrun'⟩ := hlive'.exists_jointRun
  obtain ⟨hreports, hafter⟩ := after_symbolStream hfresh locate
  have hanswers := hrun.forall₂_reports (fun hrep hroom hlisted hprocesses =>
    hprocesses.answers hrep hroom hlisted) hfresh hlive
  have hanswers' := hrun'.forall₂_reports (fun hrep hroom hlisted hprocesses =>
    hprocesses.answers hrep hroom hlisted) hfresh' hlive'
  rw [hreports] at hanswers'
  have hbook : ∀ side, market'.toExchange.book locate side =
      market.toExchange.book locate side := by
    intro side
    rw [hrun'.toExchange_eq hfresh', hafter, ← hrun.toExchange_eq hfresh, Exchange.book_only]
  refine ⟨engine, trace, engine', trace', hrun.reached, hrun'.reached, ?_,
    forall₂_sameAnswer (forall₂_select hanswers _) hanswers', fun side => ⟨?_, fun price => ?_⟩⟩
  · rw [← select_map, hrun.messages_eq, hrun'.messages_eq, decoded_symbolStream]
  · have hperm := hrun'.represents.book_perm locate side
    rw [hbook side] at hperm
    exact (hrun.represents.book_perm locate side).trans hperm.symm
  · rw [hrun.represents.priceQueue_eq, hrun'.represents.priceQueue_eq, Exchange.queue,
      Exchange.queue, hbook side]

/-- Two symbols in one stream: an order of each rests, and the one of the first is
replaced by one that fills another order of its symbol. -/
def twoSymbols : List ItchMessage :=
  [.add 1 ⟨0, 7, 5, 1000000, buyByte⟩, .add 2 ⟨0, 8, 9, 1000000, buyByte⟩,
    .add 1 ⟨0, 9, 3, 1000100, sellByte⟩, .replace ⟨9, 10, 5, 1000000⟩, .delete ⟨0, 8⟩]

theorem symbols_isolated_twoSymbols :
    ∃ engine trace engine' trace', Reached (twoSymbols.map Delivery.of) engine trace ∧
      Reached (symbolStream 1 unsettled (twoSymbols.map Delivery.of)) engine' trace' ∧
      ∀ price, engine.priceQueue 1 .buy price = engine'.priceQueue 1 .buy price := by
  have hfresh : FreshRefs ((twoSymbols.map Delivery.of).map Delivery.decoded) := by
    rw [Delivery.map_decoded_of]
    exact .of_notMem (by decide) (by decide)
  obtain ⟨engine, trace, engine', trace', hreached, hreached', _, _, hbooks⟩ :=
    symbols_isolated hfresh (liveBelow_of_length_lt (by decide)) 1
  exact ⟨engine, trace, engine', trace', hreached, hreached', (hbooks .buy).2⟩

end MatchingEngine

end Orderbook
