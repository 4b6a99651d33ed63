/-
# Laws of sweeps

How sweeps over different item types, over parts of the items and over whole
lists are related. A map that respects the rules carries a sweep to a sweep. Items
that are never eligible can be left out or looked at alone. And what a sweep takes
from an item is exactly what the item loses.
-/

import Orderbook.Math.Sweep

namespace Orderbook.Math

universe u v w z

variable {α : Type u} {τ : Type v} {β : Type w} {ρ : Type z} [DecidableEq τ] [DecidableEq ρ]
  {rules : Rules α τ} {rules' : Rules β ρ} {state : Sweep α}

namespace Rules

/-- Taking a part of an item changes neither its tag nor anything but its
quantity. -/
structure Proper (rules : Rules α τ) : Prop where
  tag : ∀ amount x, rules.tag (rules.reduce amount x) = rules.tag x
  quantity : ∀ amount x, amount ≤ rules.quantity x →
    rules.quantity (rules.reduce amount x) = rules.quantity x - amount

/-- The items of a sweep are told apart by their tags. -/
def Distinct (rules : Rules α τ) (items : List α) : Prop := (items.map rules.tag).Nodup

omit [DecidableEq τ] in
theorem Distinct.eq {items : List α} (hdistinct : rules.Distinct items) {x y : α}
    (hx : x ∈ items) (hy : y ∈ items) (htag : rules.tag x = rules.tag y) : x = y :=
  List.inj_on_of_nodup_map hdistinct hx hy htag

/-- Sweeping keeps the items apart. -/
theorem Distinct.sweep (hproper : rules.Proper) (hdistinct : rules.Distinct state.items) :
    rules.Distinct (rules.sweep state).items :=
  sweep_induction (fun reached => rules.Distinct reached.items) hdistinct
    fun _ x hreached _ => nodup_tags_fill hproper.tag hreached x

/-- A map that respects the rules. -/
structure Simulates (rules : Rules α τ) (rules' : Rules β ρ) (f : α → β) : Prop where
  eligible : ∀ x, rules'.eligible (f x) = rules.eligible x
  ahead : ∀ x y, rules'.ahead (f x) (f y) = rules.ahead x y
  quantity : ∀ x, rules'.quantity (f x) = rules.quantity x
  reduce : ∀ amount x, amount ≤ rules.quantity x →
    f (rules.reduce amount x) = rules'.reduce amount (f x)

end Rules

/-- The same sweep with other items. -/
def Sweep.map (f : α → β) (state : Sweep α) : Sweep β where
  items := state.items.map f
  demand := state.demand
  fills := state.fills.map fun fill => (f fill.1, fill.2)

namespace Rules

variable {f : α → β}

omit [DecidableEq τ] [DecidableEq ρ] in
theorem Simulates.next (hsim : rules.Simulates rules' f) (state : Sweep α) :
    rules'.next (state.map f) = (rules.next state).map f := by
  unfold Rules.next Sweep.map
  dsimp only
  split
  · rfl
  · unfold best
    rw [List.find?_map]
    congr 2
    funext x
    rw [Function.comp_apply, hsim.eligible, List.all_map]
    congr 2
    funext y
    rw [Function.comp_apply, hsim.eligible, hsim.ahead]

/-- A fill is carried to a fill when both sides tell the items apart. -/
theorem Simulates.fill (hsim : rules.Simulates rules' f) (hdistinct : rules.Distinct state.items)
    (hdistinct' : rules'.Distinct (state.items.map f)) {x : α} (hx : x ∈ state.items) :
    rules'.fill (f x) (state.map f) = (rules.fill x state).map f := by
  have htag : ∀ y ∈ state.items, rules'.tag (f y) = rules'.tag (f x) ↔
      rules.tag y = rules.tag x := by
    intro y hy
    constructor
    · intro h
      rw [Distinct, List.map_map] at hdistinct'
      rw [List.inj_on_of_nodup_map hdistinct' hy hx h]
    · intro h
      rw [hdistinct.eq hy hx h]
  have hitems : (rules'.fill (f x) (state.map f)).items = (rules.fill x state).items.map f := by
    unfold Rules.fill Sweep.map
    dsimp only
    rw [hsim.quantity]
    split
    · rw [drop, drop, List.filter_map]
      congr 1
      apply List.filter_congr
      intro y hy
      simp [htag y hy]
    · rename_i hopen
      rw [take, take, List.map_map, List.map_map]
      apply List.map_congr_left
      intro y hy
      simp only [Function.comp_apply, htag y hy]
      split
      · rename_i hsame
        rw [hdistinct.eq hy hx hsame, hsim.reduce _ x (Nat.le_of_not_le hopen)]
      · rfl
  have hfills : (rules'.fill (f x) (state.map f)).fills =
      (rules.fill x state).fills.map fun fill => (f fill.1, fill.2) := by
    simp [Rules.fill, Sweep.map, hsim.quantity]
  have hdemand : (rules'.fill (f x) (state.map f)).demand = (rules.fill x state).demand := by
    simp [Rules.fill, Sweep.map, hsim.quantity]
  unfold Sweep.map at *
  rw [← hitems, ← hfills, ← hdemand]

/-- A sweep is carried to a sweep. -/
theorem Simulates.sweep (hsim : rules.Simulates rules' f) (hproper : rules.Proper)
    (hproper' : rules'.Proper) (hdistinct : rules.Distinct state.items)
    (hdistinct' : rules'.Distinct (state.items.map f)) :
    rules'.sweep (state.map f) = (rules.sweep state).map f := by
  induction hmeasure : state.demand + state.items.length using Nat.strong_induction_on
    generalizing state with
  | h bound ih =>
      have hnext' := hsim.next state
      cases hnext : rules.next state with
      | none =>
          rw [hnext, Option.map_none] at hnext'
          rw [sweep_of_next_eq_none hnext, sweep_of_next_eq_none hnext']
      | some x =>
          rw [hnext, Option.map_some] at hnext'
          have hfill := hsim.fill hdistinct hdistinct' (mem_of_next hnext).1
          rw [sweep_of_next hnext, sweep_of_next hnext', hfill]
          apply ih _ (hmeasure ▸ fill_decreases hnext) _ _ rfl
          · exact nodup_tags_fill hproper.tag hdistinct x
          · have hitems : (rules.fill x state).items.map f =
                (rules'.fill (f x) (state.map f)).items := by rw [hfill]; rfl
            have hstart : rules'.Distinct (state.map f).items := hdistinct'
            rw [hitems]
            exact nodup_tags_fill hproper'.tag hstart (f x)

/-- A map that respects the rules on the items with a property that taking a part of them
keeps. -/
structure SimulatesOn (rules : Rules α τ) (rules' : Rules β ρ) (f : α → β) (holds : α → Prop) :
    Prop where
  keeps : ∀ amount x, holds x → holds (rules.reduce amount x)
  eligible : ∀ x, holds x → rules'.eligible (f x) = rules.eligible x
  ahead : ∀ x y, holds x → holds y → rules'.ahead (f x) (f y) = rules.ahead x y
  quantity : ∀ x, holds x → rules'.quantity (f x) = rules.quantity x
  reduce : ∀ amount x, holds x → amount ≤ rules.quantity x →
    f (rules.reduce amount x) = rules'.reduce amount (f x)

/-- The rules on the items with a property. -/
def restrict (rules : Rules α τ) {holds : α → Prop}
    (hkeeps : ∀ amount x, holds x → holds (rules.reduce amount x)) : Rules {x // holds x} τ where
  eligible x := rules.eligible x.1
  ahead x y := rules.ahead x.1 y.1
  quantity x := rules.quantity x.1
  reduce amount x := ⟨rules.reduce amount x.1, hkeeps amount x.1 x.2⟩
  tag x := rules.tag x.1

/-- A sweep over items with the property is carried to a sweep. -/
theorem SimulatesOn.sweep {holds : α → Prop} (hsim : rules.SimulatesOn rules' f holds)
    (hproper : rules.Proper) (hproper' : rules'.Proper) {items : List α}
    (hitems : ∀ x ∈ items, holds x) (demand : ℕ) (hdistinct : rules.Distinct items)
    (hdistinct' : rules'.Distinct (items.map f)) :
    rules'.sweep { items := items.map f, demand } = (rules.sweep { items, demand }).map f := by
  have hrestrict : (rules.restrict hsim.keeps).Proper :=
    ⟨fun amount x => hproper.tag amount x.1, fun amount x => hproper.quantity amount x.1⟩
  have hforget : (rules.restrict hsim.keeps).Simulates rules Subtype.val :=
    ⟨fun _ => rfl, fun _ _ => rfl, fun _ => rfl, fun _ _ _ => rfl⟩
  have hcarry : (rules.restrict hsim.keeps).Simulates rules' fun x => f x.1 :=
    ⟨fun x => hsim.eligible x.1 x.2, fun x y => hsim.ahead x.1 y.1 x.2 y.2,
      fun x => hsim.quantity x.1 x.2, fun amount x => hsim.reduce amount x.1 x.2⟩
  obtain ⟨held, rfl⟩ : ∃ held : List {x // holds x}, held.map Subtype.val = items :=
    ⟨items.attachWith holds hitems, List.attachWith_map_subtype_val hitems⟩
  rw [List.map_map] at hdistinct' ⊢
  have hheld : (rules.restrict hsim.keeps).Distinct
      ({ items := held, demand } : Sweep {x // holds x}).items := by
    rw [Distinct, List.map_map] at hdistinct
    exact hdistinct
  have hbase : rules.sweep { items := held.map Subtype.val, demand } =
      ((rules.restrict hsim.keeps).sweep { items := held, demand }).map Subtype.val :=
    hforget.sweep hrestrict hproper hheld hdistinct
  have himage : rules'.sweep { items := held.map (f ∘ Subtype.val), demand } =
      ((rules.restrict hsim.keeps).sweep { items := held, demand }).map fun x => f x.1 :=
    hcarry.sweep hrestrict hproper' hheld hdistinct'
  rw [himage, hbase]
  unfold Sweep.map
  simp only [List.map_map, Function.comp_def]

section Restrict

variable {keep : α → Bool}

omit [DecidableEq τ] in
/-- Items that are not eligible do not matter to the choice of the next one. -/
theorem next_filter (hkeep : ∀ x, rules.eligible x = true → keep x = true) (state : Sweep α) :
    rules.next { state with items := state.items.filter keep } = rules.next state := by
  unfold Rules.next best
  dsimp only
  split
  · rfl
  · rw [List.find?_filter]
    congr 1
    funext x
    have hall : ((state.items.filter keep).all fun y => !rules.eligible y || rules.ahead x y) =
        state.items.all fun y => !rules.eligible y || rules.ahead x y := by
      rw [List.all_filter]
      congr 1
      funext y
      cases heligible : rules.eligible y with
      | false => simp
      | true => simp [hkeep y heligible]
    rw [hall]
    cases heligible : rules.eligible x with
    | false => simp
    | true => simp only [hkeep x heligible, Bool.true_and, true_and, Bool.decide_eq_true]

theorem fill_filter (hkeep : ∀ amount x, keep (rules.reduce amount x) = keep x)
    (state : Sweep α) (x : α) :
    rules.fill x { state with items := state.items.filter keep } =
      { rules.fill x state with items := (rules.fill x state).items.filter keep } := by
  unfold fill
  dsimp only
  congr 1
  split
  · rw [drop, drop, List.filter_filter, List.filter_filter]
    apply List.filter_congr
    intro y _
    exact Bool.and_comm _ _
  · rw [take, take, List.filter_map]
    congr 1
    apply List.filter_congr
    intro y _
    simp only [Function.comp_apply]
    split
    · exact (hkeep _ y).symm
    · rfl

/-- A sweep over the items that include all eligible ones is the whole sweep. -/
theorem sweep_filter (hkeep : ∀ x, rules.eligible x = true → keep x = true)
    (hreduce : ∀ amount x, keep (rules.reduce amount x) = keep x) (state : Sweep α) :
    rules.sweep { state with items := state.items.filter keep } =
      { rules.sweep state with items := (rules.sweep state).items.filter keep } := by
  induction hmeasure : state.demand + state.items.length using Nat.strong_induction_on
    generalizing state with
  | h bound ih =>
      have hnext' := next_filter hkeep state
      cases hnext : rules.next state with
      | none =>
          rw [hnext] at hnext'
          rw [sweep_of_next_eq_none hnext, sweep_of_next_eq_none hnext']
      | some x =>
          rw [hnext] at hnext'
          rw [sweep_of_next hnext, sweep_of_next hnext', fill_filter hreduce]
          exact ih _ (hmeasure ▸ fill_decreases hnext) _ rfl

/-- Items that are never eligible stay as they are. -/
theorem filter_sweep_of_not_eligible (hproper : rules.Proper)
    (hkeep : ∀ x, keep x = true → rules.eligible x = false)
    (hreduce : ∀ amount x, keep (rules.reduce amount x) = keep x)
    (hdistinct : rules.Distinct state.items) :
    (rules.sweep state).items.filter keep = state.items.filter keep := by
  refine (sweep_induction
    (fun reached => rules.Distinct reached.items ∧
      reached.items.filter keep = state.items.filter keep) ⟨hdistinct, rfl⟩ ?_).2
  rintro reached x ⟨hreached, hsame⟩ hnext
  obtain ⟨hx, heligible, _⟩ := mem_of_next hnext
  refine ⟨nodup_tags_fill hproper.tag hreached x, ?_⟩
  have hother : ∀ y ∈ reached.items, keep y = true → rules.tag y ≠ rules.tag x := by
    intro y hy hkept htag
    rw [hreached.eq hy hx htag] at hkept
    rw [hkeep x hkept] at heligible
    cases heligible
  rw [← hsame]
  unfold fill
  dsimp only
  split
  · rw [drop, List.filter_filter]
    apply List.filter_congr
    intro y hy
    cases hkept : keep y with
    | false => rfl
    | true => simp [hother y hy hkept]
  · rw [take, List.filter_map]
    have hfilter : reached.items.filter (keep ∘ fun y =>
        if rules.tag y = rules.tag x then rules.reduce reached.demand y else y) =
          reached.items.filter keep := by
      apply List.filter_congr
      intro y _
      simp only [Function.comp_apply]
      split
      · exact hreduce _ y
      · rfl
    rw [hfilter]
    conv_rhs => rw [← List.map_id (reached.items.filter keep)]
    apply List.map_congr_left
    intro y hy
    obtain ⟨hy, hkept⟩ := List.mem_filter.mp hy
    exact if_neg (hother y hy hkept)

end Restrict

/-- No fill takes more than the item held. -/
theorem fill_le_quantity (hstart : state.fills = []) {fill : α × ℕ}
    (hfill : fill ∈ (rules.sweep state).fills) : fill.2 ≤ rules.quantity fill.1 := by
  revert fill
  refine sweep_induction
    (fun reached => ∀ {fill}, fill ∈ reached.fills → fill.2 ≤ rules.quantity fill.1)
    (by simp [hstart]) ?_
  intro reached x hreached _ fill hfill
  rcases List.mem_append.mp hfill with hold | hnew
  · exact hreached hold
  · obtain rfl := List.mem_singleton.mp hnew
    exact Nat.min_le_right _ _

/-- An item that was taken completely is gone. -/
theorem tag_ne_of_filled (hproper : rules.Proper) (hstart : state.fills = []) {fill : α × ℕ}
    (hfill : fill ∈ (rules.sweep state).fills) (hfilled : fill.2 = rules.quantity fill.1) :
    ∀ y ∈ (rules.sweep state).items, rules.tag y ≠ rules.tag fill.1 := by
  revert fill
  refine sweep_induction
    (fun reached => ∀ {fill}, fill ∈ reached.fills → fill.2 = rules.quantity fill.1 →
      ∀ y ∈ reached.items, rules.tag y ≠ rules.tag fill.1) (by simp [hstart]) ?_
  intro reached x hreached hnext fill hfill hfilled y hy
  rcases List.mem_append.mp hfill with hold | hnew
  · obtain ⟨z, hz, hyz⟩ := exists_mem_of_mem_fill hproper.tag hy
    rw [hyz]
    exact hreached hold hfilled z hz
  · obtain rfl := List.mem_singleton.mp hnew
    change min reached.demand (rules.quantity x) = rules.quantity x at hfilled
    have hitems : (rules.fill x reached).items = rules.drop x reached.items :=
      if_pos (min_eq_right_iff.mp hfilled)
    rw [hitems] at hy
    simpa using (List.mem_filter.mp hy).2

/-! ## Conservation -/

/-- What the items with a tag hold. -/
def held (rules : Rules α τ) (tag : τ) (items : List α) : ℕ :=
  ((items.filter fun x => rules.tag x = tag).map rules.quantity).sum

/-- What was taken from items with a tag. -/
def taken (rules : Rules α τ) (tag : τ) (fills : List (α × ℕ)) : ℕ :=
  ((fills.filter fun fill => rules.tag fill.1 = tag).map Prod.snd).sum

/-- An item that is told apart from the others is all there is under its tag. -/
theorem filter_tag_of_distinct {items : List α} (hdistinct : rules.Distinct items) {x : α}
    (hx : x ∈ items) : (items.filter fun y => rules.tag y = rules.tag x) = [x] := by
  induction items with
  | nil => simp at hx
  | cons first rest ih =>
      obtain ⟨hfirst, hrest⟩ := List.nodup_cons.mp hdistinct
      rcases List.mem_cons.mp hx with rfl | hx
      · have hnone : (rest.filter fun y => rules.tag y = rules.tag x) = [] := by
          rw [List.filter_eq_nil_iff]
          intro y hy htag
          exact hfirst (of_decide_eq_true htag ▸ List.mem_map_of_mem hy)
        simp [hnone]
      · have hne : rules.tag first ≠ rules.tag x := by
          intro htag
          exact hfirst (htag ▸ List.mem_map_of_mem hx)
        rw [List.filter_cons_of_neg (by simpa using hne)]
        exact ih hrest hx

theorem held_of_mem {items : List α} (hdistinct : rules.Distinct items) {x : α}
    (hx : x ∈ items) : rules.held (rules.tag x) items = rules.quantity x := by
  rw [held, filter_tag_of_distinct hdistinct hx]
  simp

theorem held_eq_zero {items : List α} {tag : τ} (hnone : ∀ x ∈ items, rules.tag x ≠ tag) :
    rules.held tag items = 0 := by
  have hnil : (items.filter fun x => rules.tag x = tag) = [] := by
    rw [List.filter_eq_nil_iff]
    intro x hx htag
    exact hnone x hx (of_decide_eq_true htag)
  rw [held, hnil]
  rfl

theorem held_drop {items : List α} {x : α} {tag : τ} (hne : tag ≠ rules.tag x) :
    rules.held tag (rules.drop x items) = rules.held tag items := by
  rw [held, held, drop, List.filter_filter]
  congr 2
  apply List.filter_congr
  intro y _
  by_cases htag : rules.tag y = tag
  · simp [htag, hne]
  · simp [htag]

theorem held_take (hproper : rules.Proper) {items : List α} {x : α} {tag : τ} {amount : ℕ}
    (hne : tag ≠ rules.tag x) :
    rules.held tag (rules.take x amount items) = rules.held tag items := by
  unfold held take
  rw [List.filter_map, List.map_map]
  have hfilter : items.filter ((fun y => decide (rules.tag y = tag)) ∘ fun y =>
      if rules.tag y = rules.tag x then rules.reduce amount y else y) =
        items.filter fun y => rules.tag y = tag := by
    apply List.filter_congr
    intro y _
    simp only [Function.comp_apply]
    split
    · rw [hproper.tag]
    · rfl
  rw [hfilter]
  congr 1
  apply List.map_congr_left
  intro y hy
  have htag : rules.tag y = tag := by simpa using (List.mem_filter.mp hy).2
  simp only [Function.comp_apply]
  rw [if_neg (htag ▸ hne)]

theorem taken_snoc (tag : τ) (fills : List (α × ℕ)) (x : α) (amount : ℕ) :
    rules.taken tag (fills ++ [(x, amount)]) =
      rules.taken tag fills + if rules.tag x = tag then amount else 0 := by
  unfold taken
  by_cases htag : rules.tag x = tag
  · simp [htag]
  · simp [htag]

/-- A fill moves shares from an item to the fills. -/
theorem held_add_taken_fill (hproper : rules.Proper) (hdistinct : rules.Distinct state.items)
    {x : α} (hx : x ∈ state.items) (tag : τ) :
    rules.held tag (rules.fill x state).items + rules.taken tag (rules.fill x state).fills =
      rules.held tag state.items + rules.taken tag state.fills := by
  have hfills : (rules.fill x state).fills =
      state.fills ++ [(x, min state.demand (rules.quantity x))] := rfl
  rw [hfills, taken_snoc]
  by_cases hfilled : rules.quantity x ≤ state.demand
  · have hitems : (rules.fill x state).items = rules.drop x state.items := if_pos hfilled
    rw [hitems, Nat.min_eq_right hfilled]
    by_cases htag : rules.tag x = tag
    · subst htag
      have hgone : rules.held (rules.tag x) (rules.drop x state.items) = 0 :=
        held_eq_zero fun y hy => by simpa using (List.mem_filter.mp hy).2
      rw [hgone, held_of_mem hdistinct hx, if_pos rfl]
      omega
    · rw [held_drop (Ne.symm htag), if_neg htag]
      omega
  · have hopen : state.demand ≤ rules.quantity x := Nat.le_of_not_le hfilled
    have hitems : (rules.fill x state).items = rules.take x state.demand state.items :=
      if_neg hfilled
    rw [Nat.min_eq_left hopen]
    by_cases htag : rules.tag x = tag
    · subst htag
      have hmem : rules.reduce state.demand x ∈ (rules.fill x state).items := by
        rw [hitems]
        exact List.mem_map.mpr ⟨x, hx, if_pos rfl⟩
      have hleft := held_of_mem (nodup_tags_fill hproper.tag hdistinct x) hmem
      rw [hproper.tag, hproper.quantity _ x hopen] at hleft
      rw [hleft, held_of_mem hdistinct hx, if_pos rfl]
      omega
    · rw [hitems, held_take hproper (Ne.symm htag), if_neg htag]
      omega

/-- A sweep moves shares from the items to the fills. -/
theorem held_add_taken_sweep (hproper : rules.Proper) (hdistinct : rules.Distinct state.items)
    (tag : τ) :
    rules.held tag (rules.sweep state).items + rules.taken tag (rules.sweep state).fills =
      rules.held tag state.items + rules.taken tag state.fills := by
  refine (sweep_induction
    (fun reached => rules.Distinct reached.items ∧
      rules.held tag reached.items + rules.taken tag reached.fills =
        rules.held tag state.items + rules.taken tag state.fills) ⟨hdistinct, rfl⟩ ?_).2
  rintro reached x ⟨hreached, hsame⟩ hnext
  exact ⟨nodup_tags_fill hproper.tag hreached x,
    (held_add_taken_fill hproper hreached (mem_of_next hnext).1 tag).trans hsame⟩

/-- The demand that was met is what was taken. -/
theorem demand_add_fills_sweep (state : Sweep α) :
    (rules.sweep state).demand + ((rules.sweep state).fills.map Prod.snd).sum =
      state.demand + (state.fills.map Prod.snd).sum := by
  refine sweep_induction
    (fun reached => reached.demand + (reached.fills.map Prod.snd).sum =
      state.demand + (state.fills.map Prod.snd).sum) rfl ?_
  intro reached x hreached _
  rw [← hreached]
  simp only [fill, List.map_append, List.map_cons, List.map_nil, List.sum_append, List.sum_cons,
    List.sum_nil]
  omega

/-- What a sweep has taken so far: whole items, and at the end perhaps a part of one more. -/
structure Served (rules : Rules α τ) (start : List α) (reached : Sweep α) (whole : List α)
    (part : Option (α × ℕ)) : Prop where
  fills : reached.fills = whole.map (fun x => (x, rules.quantity x)) ++ part.toList
  eligible : ∀ fill ∈ reached.fills, rules.eligible fill.1 = true
  short : ∀ fill ∈ part, 0 < fill.2 ∧ fill.2 < rules.quantity fill.1 ∧ reached.demand = 0
  left : part = none → (whole ++ reached.items).Perm start
  taken : (whole ++ part.toList.map Prod.fst).Subperm start

/-- An item and the others. -/
theorem Distinct.perm_drop {items : List α} (hdistinct : rules.Distinct items) {x : α}
    (hx : x ∈ items) : (x :: rules.drop x items).Perm items := by
  have hsplit := List.filter_append_perm (fun y => decide (rules.tag y = rules.tag x)) items
  rw [filter_tag_of_distinct hdistinct hx] at hsplit
  refine List.Perm.trans (.of_eq ?_) hsplit
  rw [drop, List.singleton_append]
  congr 2
  funext y
  rw [← decide_not]

/-- One more fill. -/
theorem Served.fill {start : List α} {reached : Sweep α} {whole : List α}
    {part : Option (α × ℕ)} (hserved : Served rules start reached whole part)
    (hdistinct : rules.Distinct reached.items) {x : α} (hnext : rules.next reached = some x) :
    ∃ whole' part', Served rules start (rules.fill x reached) whole' part' := by
  obtain ⟨hx, heligible, hdemand⟩ := mem_of_next hnext
  have hnone : part = none := by
    cases part with
    | none => rfl
    | some fill => exact absurd (hserved.short fill rfl).2.2 hdemand
  subst hnone
  have hperm := hserved.left rfl
  have hfills := hserved.fills
  rw [Option.toList_none, List.append_nil] at hfills
  have hall : ∀ fill ∈ (rules.fill x reached).fills, rules.eligible fill.1 = true := by
    intro fill hfill
    rcases List.mem_append.mp hfill with hold | hnew
    · exact hserved.eligible fill hold
    · rw [List.mem_singleton.mp hnew]
      exact heligible
  have hfilled : (rules.fill x reached).fills =
      whole.map (fun x => (x, rules.quantity x)) ++
        [(x, min reached.demand (rules.quantity x))] := by
    rw [← hfills]
    rfl
  by_cases hwhole : rules.quantity x ≤ reached.demand
  · have hitems : (rules.fill x reached).items = rules.drop x reached.items := if_pos hwhole
    have hleft : (whole ++ [x] ++ rules.drop x reached.items).Perm start := by
      rw [List.append_assoc]
      exact ((hdistinct.perm_drop hx).append_left whole).trans hperm
    refine ⟨whole ++ [x], none, ?_, hall, ?_, ?_, ?_⟩
    · rw [hfilled, Nat.min_eq_right hwhole]
      simp
    · exact fun fill hnever => nomatch hnever
    · intro _
      rwa [hitems]
    · rw [Option.toList_none, List.map_nil, List.append_nil]
      exact (List.sublist_append_left _ _).subperm.trans hleft.subperm
  · have hpart : reached.demand < rules.quantity x := Nat.lt_of_not_le hwhole
    refine ⟨whole, some (x, reached.demand), ?_, hall, ?_, ?_, ?_⟩
    · rw [hfilled, Nat.min_eq_left (Nat.le_of_lt hpart)]
      rfl
    · intro fill hfill
      cases hfill
      exact ⟨Nat.pos_of_ne_zero hdemand, hpart, Nat.sub_eq_zero_of_le (Nat.le_of_lt hpart)⟩
    · exact fun hnever => nomatch hnever
    · have hone : [x].Subperm reached.items := List.singleton_subperm_iff.mpr hx
      exact ((List.subperm_append_left whole).mpr hone).trans hperm.subperm

end Rules

end Orderbook.Math
