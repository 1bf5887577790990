import Distlib.Core.Id
import Distlib.Lib.GuardedRun
import Distlib.Lib.Since

/-!
# Items down to one copy

An item that has had one live copy for long enough is copied here, as cache. Which items these
are is worked out again and again from who is online: an item is alone since the first look
that found it so, due when that is a delay ago, and being copied from when its copy is begun.

An item that a look finds with more copies is forgotten, and its delay starts over when it is
alone again. One that is being copied is not forgotten, though, and one whose copy fails is due
at once: the copy was due when it began, and what looks saw meanwhile is not asked. So "alone
for the whole delay" is not what makes an item due; `mem_due_iff` says what does, in terms of
all calls there were.
-/

namespace Distlib

open GuardedRun OrdMap

/-- Where an item this node does not hold, down to one live copy, stands. -/
inductive Alone : Type where
  /-- one live copy since then -/
  | since (time : ℕ)
  /-- one live copy for long enough -/
  | due
  /-- being copied here -/
  | copying
  deriving DecidableEq

/-- Every item down to one live copy that this node does not hold. -/
abbrev AloneItems : Type := OrdMap ItemId Alone

/-- One that has waited for the delay is due. -/
def Alone.ripen (now delay : ℕ) : Alone → Alone
  | .since time => if time + delay ≤ now then .due else .since time
  | .due => .due
  | .copying => .copying

/-- One item alone now: as it stood, and taken out of what stood, or alone since now. -/
def AloneItems.bringUp (now : ℕ) (both : AloneItems × AloneItems) (item : ItemId) :
    AloneItems × AloneItems :=
  (both.1.erase item, both.2.insert item ((both.1[item]?).getD (.since now)))

/-- The items brought up to those alone now, and the ones due. -/
def AloneItems.update (items : AloneItems) (aloneNow : List ItemId) (now delay : ℕ) :
    AloneItems × List ItemId :=
  let (previous, alone) := aloneNow.foldl (bringUp now) (items, ∅)
  -- one being copied stays, alone or not
  let alone := alone ∪ previous.filter fun _ alone => alone = .copying
  let alone := alone.map fun _ alone => alone.ripen now delay
  (alone, (alone.toList.filter fun entry => entry.2 = .due).map Prod.fst)

/-- When the next item alone becomes due. -/
def AloneItems.nextDue (items : AloneItems) (delay : ℕ) : Option ℕ :=
  (items.toList.filterMap fun entry =>
    match entry.2 with
    | .since time => some (time + delay)
    | .due => none
    | .copying => none).min?

def AloneItems.copying (items : AloneItems) (item : ItemId) : AloneItems :=
  items.insert item .copying

/-- A copy done is no longer alone here; one failed is due again. -/
def AloneItems.copied (items : AloneItems) (item : ItemId) (succeeded : Bool) : AloneItems :=
  if succeeded then items.erase item else items.insert item .due

/-! ## What a look does to one item -/

section Update

variable {items : AloneItems} {aloneNow : List ItemId} {now delay : ℕ} {item : ItemId}

/-- Of each item alone now, as it stood; of the others, what is left of what stood. -/
theorem foldl_bringUp (now : ℕ) (aloneNow : List ItemId) :
    ∀ (previous alone : AloneItems), aloneNow.Nodup →
      (∀ item : ItemId, (aloneNow.foldl (AloneItems.bringUp now) (previous, alone)).1[item]? =
        if item ∈ aloneNow then none else previous[item]?) ∧
      ∀ item : ItemId, (aloneNow.foldl (AloneItems.bringUp now) (previous, alone)).2[item]? =
        if item ∈ aloneNow then some ((previous[item]?).getD (.since now)) else alone[item]? := by
  induction aloneNow with
  | nil => intro previous alone _; exact ⟨fun _ => rfl, fun _ => rfl⟩
  | cons first rest ih =>
    intro previous alone hnodup
    obtain ⟨hfirst, hrest⟩ := List.nodup_cons.mp hnodup
    obtain ⟨hprevious, halone⟩ := ih (previous.erase first)
      (alone.insert first ((previous[first]?).getD (.since now))) hrest
    refine ⟨fun item => ?_, fun item => ?_⟩
    · rw [List.foldl_cons, AloneItems.bringUp, hprevious]
      by_cases heq : first = item
      · obtain rfl := heq
        simp
      · simp [Std.ExtTreeMap.getElem?_erase, heq, Ne.symm heq]
    · rw [List.foldl_cons, AloneItems.bringUp, halone]
      by_cases heq : first = item
      · obtain rfl := heq
        simp [hfirst]
      · simp [Std.ExtTreeMap.getElem?_erase, Std.ExtTreeMap.getElem?_insert, heq, Ne.symm heq]

/-- **What a look makes of an item**: one alone is as it stood or alone since now, and ripens;
one that is not stays if it is being copied. -/
theorem getElem?_update (hnodup : aloneNow.Nodup) (item : ItemId) :
    (items.update aloneNow now delay).1[item]? =
      if item ∈ aloneNow then some (((items[item]?).getD (.since now)).ripen now delay)
      else if items[item]? = some .copying then some .copying else none := by
  obtain ⟨hprevious, halone⟩ := foldl_bringUp now aloneNow items ∅ hnodup
  rw [AloneItems.update]
  dsimp only
  rw [Std.ExtTreeMap.getElem?_map, Std.ExtTreeMap.getElem?_union, Std.ExtTreeMap.getElem?_filter',
    hprevious, halone]
  by_cases hmem : item ∈ aloneNow
  · rw [if_pos hmem, if_pos hmem, if_pos hmem]
    rfl
  · rw [if_neg hmem, if_neg hmem, if_neg hmem]
    rcases items[item]? with _ | alone
    · simp
    · cases alone <;> simp [Alone.ripen, Option.filter]

/-- The items returned are those that are due. -/
theorem mem_due : item ∈ (items.update aloneNow now delay).2 ↔
    (items.update aloneNow now delay).1[item]? = some .due := by
  simp only [AloneItems.update, List.mem_map, List.mem_filter, decide_eq_true_eq]
  constructor
  · rintro ⟨⟨item, alone⟩, ⟨hmem, rfl⟩, rfl⟩
    exact Std.ExtTreeMap.mem_toList_iff_getElem?_eq_some.mp hmem
  · intro hget
    exact ⟨(item, .due), ⟨Std.ExtTreeMap.mem_toList_iff_getElem?_eq_some.mpr hget, rfl⟩, rfl⟩

/-- No item is returned twice. -/
theorem nodup_due (items : AloneItems) (aloneNow : List ItemId) (now delay : ℕ) :
    (items.update aloneNow now delay).2.Nodup := by
  refine List.pairwise_map.mpr (Std.ExtTreeMap.distinct_keys_toList.filter _ |>.imp ?_)
  intro first second hne heq
  exact hne (Std.LawfulEqCmp.compare_eq_iff_eq.mpr heq)

/-- What is due is alone. -/
theorem alone_of_due (hnodup : aloneNow.Nodup)
    (hdue : item ∈ (items.update aloneNow now delay).2) : item ∈ aloneNow := by
  rw [mem_due, getElem?_update hnodup] at hdue
  by_contra hnot
  rw [if_neg hnot] at hdue
  split at hdue <;> cases hdue

/-- A look begins no copy, and ends none. -/
theorem copying_update (hnodup : aloneNow.Nodup) :
    (items.update aloneNow now delay).1[item]? = some .copying ↔ items[item]? = some .copying := by
  rw [getElem?_update hnodup]
  by_cases hmem : item ∈ aloneNow
  · rw [if_pos hmem]
    rcases items[item]? with _ | alone
    · simp only [Option.getD_none, Alone.ripen]
      split <;> simp
    · cases alone <;> simp only [Option.getD_some, Alone.ripen]
      split <;> simp
  · rw [if_neg hmem]
    split <;> simp_all

end Update

/-! ## All calls -/

namespace AloneItems

inductive Call : Type where
  | update (aloneNow : OrdSet ItemId) (now : ℕ)
  | copying (item : ItemId)
  | copied (item : ItemId) (succeeded : Bool)

/-- What a call leaves. -/
def call (delay : ℕ) (items : AloneItems) : Call → AloneItems
  | .update aloneNow now => (items.update aloneNow.toList now delay).1
  | .copying item => items.copying item
  | .copied item succeeded => items.copied item succeeded

namespace Call

def time : Call → Option ℕ
  | .update _ now => some now
  | _ => none

/-- An update at a time that finds the item alone. -/
def AloneAt (item : ItemId) (time : ℕ) : Call → Prop
  | .update aloneNow now => item ∈ aloneNow ∧ now = time
  | _ => False

/-- An update that finds the item alone, the delay ago at least. -/
def AloneBefore (item : ItemId) (delay now : ℕ) : Call → Prop
  | .update aloneNow time => item ∈ aloneNow ∧ time + delay ≤ now
  | _ => False

/-- A copy of the item fails. -/
def Fails (item : ItemId) : Call → Prop
  | .copied other false => other = item
  | _ => False

/-- Nothing that ends the item's being alone: not an update that does not find it so, nor a copy
of it that succeeds. -/
def KeepsAlone (item : ItemId) : Call → Prop
  | .update aloneNow _ => item ∈ aloneNow
  | .copying _ => True
  | .copied other succeeded => other = item → succeeded = false

def Begins (item : ItemId) : Call → Prop
  | .copying other => other = item
  | _ => False

def Ends (item : ItemId) : Call → Prop
  | .copied other _ => other = item
  | _ => False

instance (item : ItemId) (delay now : ℕ) : DecidablePred (AloneBefore item delay now)
  | .update aloneNow time => inferInstanceAs (Decidable (item ∈ aloneNow ∧ time + delay ≤ now))
  | .copying _ => inferInstanceAs (Decidable False)
  | .copied _ _ => inferInstanceAs (Decidable False)

instance (item : ItemId) : DecidablePred (Fails item)
  | .update _ _ => inferInstanceAs (Decidable False)
  | .copying _ => inferInstanceAs (Decidable False)
  | .copied other false => inferInstanceAs (Decidable (other = item))
  | .copied _ true => inferInstanceAs (Decidable False)

instance (item : ItemId) : DecidablePred (KeepsAlone item)
  | .update aloneNow _ => inferInstanceAs (Decidable (item ∈ aloneNow))
  | .copying _ => inferInstanceAs (Decidable True)
  | .copied other succeeded => inferInstanceAs (Decidable (other = item → succeeded = false))

instance (item : ItemId) : DecidablePred (Begins item)
  | .update _ _ => inferInstanceAs (Decidable False)
  | .copying other => inferInstanceAs (Decidable (other = item))
  | .copied _ _ => inferInstanceAs (Decidable False)

instance (item : ItemId) : DecidablePred (Ends item)
  | .update _ _ => inferInstanceAs (Decidable False)
  | .copying _ => inferInstanceAs (Decidable False)
  | .copied other _ => inferInstanceAs (Decidable (other = item))

/-- What a call leaves of one item. -/
def leaves (item : ItemId) (delay : ℕ) (stood : Option Alone) : Call → Option Alone
  | .update aloneNow now =>
    if item ∈ aloneNow then some ((stood.getD (.since now)).ripen now delay)
    else if stood = some .copying then some .copying else none
  | .copying other => if other = item then some .copying else stood
  | .copied other succeeded =>
    if other = item then if succeeded then none else some .due else stood

end Call

variable {delay : ℕ} {item : ItemId} {calls : List Call} {stood : Option Alone}

theorem nodup_toList (aloneNow : OrdSet ItemId) : aloneNow.toList.Nodup :=
  aloneNow.distinct_toList.imp fun hne heq => hne (Std.LawfulEqCmp.compare_eq_iff_eq.mpr heq)

theorem getElem?_call (items : AloneItems) (delay : ℕ) (last : Call) (item : ItemId) :
    (items.call delay last)[item]? = last.leaves item delay items[item]? := by
  cases last with
  | update aloneNow now =>
    rw [call, getElem?_update (nodup_toList aloneNow), Call.leaves]
    simp only [Std.ExtTreeSet.mem_toList]
  | copying other =>
    rw [call, copying, Std.ExtTreeMap.getElem?_insert, Call.leaves]
    simp only [Std.LawfulEqCmp.compare_eq_iff_eq]
  | copied other succeeded =>
    rw [call, copied, Call.leaves]
    cases succeeded <;>
      simp [Std.ExtTreeMap.getElem?_insert, Std.ExtTreeMap.getElem?_erase]

/-- Whether the item is being copied, going by the calls. -/
def BeingCopied (item : ItemId) (calls : List Call) : Prop :=
  Since (Call.Begins item) (fun later => ¬later.Ends item) calls

instance (item : ItemId) (calls : List Call) : Decidable (BeingCopied item calls) :=
  inferInstanceAs (Decidable (Since _ _ calls))

/-- Where an item stands, in terms of all calls there were. -/
structure Stands (item : ItemId) (delay : ℕ) (calls : List Call) (stood : Option Alone) : Prop where
  copying : stood = some .copying ↔ BeingCopied item calls
  due : stood = some .due → ∀ now, (∀ time ∈ calls.filterMap Call.time, time ≤ now) →
    Since (fun first => first.AloneBefore item delay now ∨ first.Fails item)
      (Call.KeepsAlone item) calls
  since : ∀ time, stood = some (.since time) →
    Since (Call.AloneAt item time) (Call.KeepsAlone item) calls
  failed : Since (Call.Fails item) (Call.KeepsAlone item) calls →
    stood = some .copying ∨ stood = some .due
  waits : ∀ time, Since (Call.AloneAt item time) (Call.KeepsAlone item) calls →
    stood = some .copying ∨ stood = some .due ∨ ∃ since ≤ time, stood = some (.since since)

theorem stands_nil (item : ItemId) (delay : ℕ) : Stands item delay [] none where
  copying := iff_of_false (fun h => by cases h) not_since_nil
  due := fun h => by cases h
  since := fun _ h => by cases h
  failed := fun h => absurd h not_since_nil
  waits := fun _ h => absurd h not_since_nil

/-- A call of another item. -/
theorem Stands.other (h : Stands item delay calls stood) {last : Call}
    (hsame : last.leaves item delay stood = stood) (htime : last.time = none)
    (hbegins : ¬last.Begins item) (hends : ¬last.Ends item) (hkeeps : last.KeepsAlone item)
    (hfails : ¬last.Fails item) :
    Stands item delay (calls ++ [last]) (last.leaves item delay stood) := by
  have halone : ∀ time, ¬last.AloneAt item time := by
    intro time hat
    cases last with
    | update aloneNow now => cases htime
    | _ => exact hat
  rw [hsame]
  refine ⟨?_, fun hdue now hnow => ?_, fun time hsince => ?_, fun hfailed => ?_,
    fun time hwaits => ?_⟩
  · rw [h.copying, BeingCopied, BeingCopied, since_concat, or_iff_right hbegins,
      and_iff_left hends]
  · rw [List.filterMap_append, List.filterMap_cons_none htime] at hnow
    exact since_concat.mpr (Or.inr ⟨h.due hdue now (by simpa using hnow), hkeeps⟩)
  · exact since_concat.mpr (Or.inr ⟨h.since time hsince, hkeeps⟩)
  · exact h.failed ((since_concat.mp hfailed).resolve_left hfails).1
  · exact h.waits time ((since_concat.mp hwaits).resolve_left (halone time)).1

theorem stands_copying (hbeing : BeingCopied item calls) :
    Stands item delay calls (some .copying) where
  copying := iff_of_true rfl hbeing
  due := fun h => by cases h
  since := fun _ h => by cases h
  failed := fun _ => Or.inl rfl
  waits := fun _ _ => Or.inl rfl

theorem stands_due (hbeing : ¬BeingCopied item calls)
    (hdue : ∀ now, (∀ time ∈ calls.filterMap Call.time, time ≤ now) →
      Since (fun first => first.AloneBefore item delay now ∨ first.Fails item)
        (Call.KeepsAlone item) calls) :
    Stands item delay calls (some .due) where
  copying := iff_of_false (fun h => by cases h) hbeing
  due := fun _ => hdue
  since := fun _ h => by cases h
  failed := fun _ => Or.inr rfl
  waits := fun _ _ => Or.inr (Or.inl rfl)

/-- A call that ends the item's being alone, and does not find it so, leaves nothing. -/
theorem stands_gone {last : Call} (hbeing : ¬BeingCopied item (calls ++ [last]))
    (hfails : ¬last.Fails item) (hkeeps : ¬last.KeepsAlone item)
    (halone : ∀ time, ¬last.AloneAt item time) :
    Stands item delay (calls ++ [last]) none where
  copying := iff_of_false (fun h => by cases h) hbeing
  due := fun h => by cases h
  since := fun _ h => by cases h
  failed := fun h => ((since_concat.mp h).elim hfails fun hboth => hkeeps hboth.2).elim
  waits := fun time h => ((since_concat.mp h).elim (halone time) fun hboth => hkeeps hboth.2).elim

/-- An update begins no copy and ends none. -/
theorem beingCopied_update {aloneNow : OrdSet ItemId} {now : ℕ} :
    BeingCopied item (calls ++ [Call.update aloneNow now]) ↔ BeingCopied item calls := by
  rw [BeingCopied, BeingCopied, since_concat]
  simp [Call.Begins, Call.Ends]

/-- What was found at a time was found at the time of a call. -/
theorem time_of_aloneAt {q : Call → Prop} {time : ℕ} (h : Since (Call.AloneAt item time) q calls) :
    time ∈ calls.filterMap Call.time := by
  obtain ⟨first, hmem, hfirst⟩ := h.exists_mem
  cases first with
  | update found at_ =>
    obtain ⟨-, rfl⟩ := hfirst
    exact List.mem_filterMap.mpr ⟨_, hmem, rfl⟩
  | copying other => cases hfirst
  | copied other succeeded => cases hfirst

/-- An update that finds alone an item that has been so since some time: due if that is the
delay ago, and waiting if not. -/
theorem stands_ripened {aloneNow : OrdSet ItemId} {now time : ℕ}
    (hbeing : ¬BeingCopied item (calls ++ [Call.update aloneNow now]))
    (hsince : Since (Call.AloneAt item time) (Call.KeepsAlone item)
      (calls ++ [Call.update aloneNow now]))
    (hfailed : ¬Since (Call.Fails item) (Call.KeepsAlone item)
      (calls ++ [Call.update aloneNow now]))
    (hwaits : ∀ found, Since (Call.AloneAt item found) (Call.KeepsAlone item)
      (calls ++ [Call.update aloneNow now]) → time ≤ found) :
    Stands item delay (calls ++ [Call.update aloneNow now])
      (some ((Alone.since time).ripen now delay)) := by
  rw [Alone.ripen]
  split
  · rename_i hripe
    refine stands_due hbeing fun later hlater => hsince.imp (fun first hfirst => Or.inl ?_)
      fun _ => id
    have hnow : now ≤ later := hlater now (List.mem_filterMap.mpr
      ⟨.update aloneNow now, List.mem_append_right _ List.mem_cons_self, rfl⟩)
    cases first with
    | update found at_ => exact ⟨hfirst.1, by have := hfirst.2; omega⟩
    | copying other => cases hfirst
    | copied other succeeded => cases hfirst
  · refine ⟨iff_of_false (fun h => (by cases h)) hbeing, fun h => (by cases h),
      fun other h => ?_, fun h => absurd h hfailed,
      fun found h => Or.inr (Or.inr ⟨time, hwaits found h, rfl⟩)⟩
    obtain rfl := Alone.since.inj (Option.some.inj h)
    exact hsince

/-- An update that finds the item alone. -/
theorem Stands.found (h : Stands item delay calls stood) {aloneNow : OrdSet ItemId} {now : ℕ}
    (hitem : item ∈ aloneNow) (hclock : ∀ time ∈ calls.filterMap Call.time, time ≤ now) :
    Stands item delay (calls ++ [Call.update aloneNow now])
      (some ((stood.getD (.since now)).ripen now delay)) := by
  have hkeeps : (Call.update aloneNow now).KeepsAlone item := hitem
  have hfails : Since (Call.Fails item) (Call.KeepsAlone item)
      (calls ++ [Call.update aloneNow now]) →
      stood = some .copying ∨ stood = some .due := by
    intro hfailed
    exact h.failed ((since_concat.mp hfailed).resolve_left fun hnow => hnow).1
  have hfound : ∀ time, Since (Call.AloneAt item time) (Call.KeepsAlone item)
      (calls ++ [Call.update aloneNow now]) → time = now ∨ stood = some .copying ∨
        stood = some .due ∨ ∃ since ≤ time, stood = some (.since since) := by
    intro time hat
    rcases since_concat.mp hat with ⟨-, hnow⟩ | ⟨hbefore, -⟩
    · exact Or.inl hnow.symm
    · exact Or.inr (h.waits time hbefore)
  rcases stood with _ | alone
  · refine stands_ripened (beingCopied_update.not.mpr (h.copying.not.mp (by simp)))
      (since_concat.mpr (Or.inl ⟨hitem, rfl⟩)) (fun hfailed => by simpa using hfails hfailed)
      fun found hat => ?_
    rcases hfound found hat with rfl | hcopying | hdue | ⟨since, -, hsince⟩
    · exact le_refl _
    all_goals simp at *
  · cases alone with
    | since time =>
      have hsince := h.since time rfl
      refine stands_ripened (beingCopied_update.not.mpr (h.copying.not.mp (by simp)))
        (since_concat.mpr (Or.inr ⟨hsince, hkeeps⟩)) (fun hfailed => by simpa using hfails hfailed)
        fun found hat => ?_
      rcases hfound found hat with rfl | hcopying | hdue | ⟨since, hle, heq⟩
      · exact hclock time (time_of_aloneAt hsince)
      · cases hcopying
      · cases hdue
      · obtain rfl := Alone.since.inj (Option.some.inj heq)
        exact hle
    | due =>
      refine stands_due (beingCopied_update.not.mpr (h.copying.not.mp (by simp)))
        fun later hlater => ?_
      refine since_concat.mpr (Or.inr ⟨h.due rfl later fun time hmem => hlater time ?_, hkeeps⟩)
      rw [List.filterMap_append]
      exact List.mem_append_left _ hmem
    | copying => exact stands_copying (beingCopied_update.mpr (h.copying.mp rfl))

/-- **One call more**: where an item stands goes by all calls there were. -/
theorem Stands.concat (h : Stands item delay calls stood) {last : Call}
    (hclock : ∀ now, last.time = some now → ∀ time ∈ calls.filterMap Call.time, time ≤ now) :
    Stands item delay (calls ++ [last]) (last.leaves item delay stood) := by
  cases last with
  | update aloneNow now =>
    rw [Call.leaves]
    by_cases hitem : item ∈ aloneNow
    · rw [if_pos hitem]
      exact h.found hitem (hclock now rfl)
    · rw [if_neg hitem]
      by_cases hcopying : stood = some .copying
      · rw [if_pos hcopying]
        exact stands_copying (beingCopied_update.mpr (h.copying.mp hcopying))
      · rw [if_neg hcopying]
        exact stands_gone (beingCopied_update.not.mpr (h.copying.not.mp hcopying))
          (fun hfails => hfails) hitem fun _ hat => hitem hat.1
  | copying other =>
    by_cases hother : other = item
    · rw [Call.leaves, if_pos hother]
      exact stands_copying (since_concat.mpr (Or.inl hother))
    · exact h.other (if_neg hother) rfl hother (fun hends => hends) trivial fun hfails => hfails
  | copied other succeeded =>
    by_cases hother : other = item
    · have hbeing : ¬BeingCopied item (calls ++ [.copied other succeeded]) := by
        rw [BeingCopied, since_concat]
        rintro (hbegins | ⟨-, hends⟩)
        · exact hbegins
        · exact hends hother
      rw [Call.leaves, if_pos hother]
      cases succeeded with
      | true =>
        exact stands_gone hbeing (fun hfails => hfails) (fun hkeeps => by cases hkeeps hother)
          fun _ hat => hat
      | false => exact stands_due hbeing fun now _ => since_concat.mpr (Or.inl (Or.inr hother))
    · refine h.other (if_neg hother) rfl (fun hbegins => hbegins) hother
        (fun heq => absurd heq hother) fun hfails => ?_
      cases succeeded with
      | true => exact hfails
      | false => exact hother hfails

/-- What waits after an update has not waited for the delay. -/
theorem young_of_update {items : AloneItems} {aloneNow : OrdSet ItemId} {now since : ℕ}
    (h : (items.call delay (.update aloneNow now))[item]? = some (.since since)) :
    now < since + delay := by
  rw [getElem?_call, Call.leaves] at h
  split at h
  · have hripened := Option.some.inj h
    cases halone : (items[item]?).getD (.since now) with
    | since time =>
      rw [halone, Alone.ripen] at hripened
      split at hripened
      · cases hripened
      · obtain rfl := Alone.since.inj hripened
        omega
    | due =>
      rw [halone] at hripened
      cases hripened
    | copying =>
      rw [halone] at hripened
      cases hripened
  · split at h <;> cases h

/-- Where every item stands after some calls in the order of their times. -/
theorem stands_calls (delay : ℕ) (item : ItemId) (calls : List Call)
    (hclock : (calls.filterMap Call.time).Pairwise (· ≤ ·)) :
    Stands item delay calls (exec (call delay) ∅ calls)[item]? := by
  induction calls using List.reverseRecOn with
  | nil => simpa using stands_nil item delay
  | append_singleton calls last ih =>
    rw [List.filterMap_append, List.pairwise_append] at hclock
    obtain ⟨hbefore, -, hlast⟩ := hclock
    rw [exec_append, exec_cons, exec_nil, getElem?_call]
    refine (ih hbefore).concat fun now hnow time hmem => hlast time hmem now ?_
    rw [List.filterMap_cons_some hnow]
    exact List.mem_cons_self

/-- **Due** is an item that is not being copied and has been found alone by every update, with
no copy of it done, since one the delay ago at least, or since a copy of it failed. -/
theorem mem_due_iff (delay : ℕ) (calls : List Call) (aloneNow : OrdSet ItemId) (now : ℕ)
    (item : ItemId)
    (hclock : ((calls ++ [Call.update aloneNow now]).filterMap Call.time).Pairwise (· ≤ ·)) :
    item ∈ ((exec (call delay) ∅ calls).update aloneNow.toList now delay).2 ↔
      ¬BeingCopied item calls ∧
        Since (fun first => first.AloneBefore item delay now ∨ first.Fails item)
          (Call.KeepsAlone item) (calls ++ [.update aloneNow now]) := by
  have hstands := stands_calls delay item _ hclock
  have hlatest : ∀ time ∈ (calls ++ [Call.update aloneNow now]).filterMap Call.time,
      time ≤ now := by
    intro time hmem
    rw [List.filterMap_append, List.pairwise_append] at hclock
    rw [List.filterMap_append, List.mem_append] at hmem
    rcases hmem with hbefore | hlast
    · exact hclock.2.2 time hbefore now List.mem_cons_self
    · exact (List.mem_singleton.mp hlast).le
  rw [exec_append, exec_cons, exec_nil] at hstands
  rw [mem_due]
  change ((exec (call delay) ∅ calls).call delay (.update aloneNow now))[item]? = _ ↔ _
  constructor
  · intro hdue
    refine ⟨fun hbeing => ?_, hstands.due hdue now hlatest⟩
    have hcopying := hstands.copying.mpr (beingCopied_update.mpr hbeing)
    rw [hdue] at hcopying
    cases hcopying
  · rintro ⟨hbeing, hsince⟩
    have hcopying : ((exec (call delay) ∅ calls).call delay (.update aloneNow now))[item]? ≠
        some .copying := fun h => hbeing (beingCopied_update.mp (hstands.copying.mp h))
    rcases since_or.mp hsince with hbefore | hfailed
    · have hfound : Since (fun first => ∃ time, time + delay ≤ now ∧ first.AloneAt item time)
          (Call.KeepsAlone item) (calls ++ [Call.update aloneNow now]) := by
        refine hbefore.imp (fun first hfirst => ?_) fun _ => id
        cases first with
        | update found time => exact ⟨time, hfirst.2, hfirst.1, rfl⟩
        | copying other => cases hfirst
        | copied other succeeded => cases hfirst
      obtain ⟨time, hat⟩ := since_exists.mp hfound
      have hle : time + delay ≤ now := by
        obtain ⟨first, -, hle, -⟩ := hat.exists_mem
        exact hle
      have hfoundAt := hat.imp (fun _ => And.right) fun _ => id
      rcases hstands.waits time hfoundAt with hcopy | hdue | hwaits
      · exact absurd hcopy hcopying
      · exact hdue
      · -- one that waits is younger than the delay
        obtain ⟨since, hsince, hwaiting⟩ := hwaits
        have hyoung := young_of_update hwaiting
        omega
    · exact (hstands.failed hfailed).resolve_left hcopying

/-- One item alone. -/
def one : OrdSet ItemId := {⟨1⟩}

/-- It is due if found alone twice, the delay apart. -/
theorem mem_due_apart : ⟨1⟩ ∈ ((exec (call 10) ∅ [.update one 0]).update one.toList 10 10).2 := by
  have hdue := mem_due_iff 10 [.update one 0] one 10 ⟨1⟩ (by decide +kernel)
  exact hdue.mpr ⟨by decide +kernel, by decide +kernel⟩

section Outlived

/-! A copy that outlives a look, and fails; and one that is done. -/

/-- An update that finds the item alone, or no update. -/
def Call.FindsAlone (item : ItemId) : Call → Prop
  | .update aloneNow _ => item ∈ aloneNow
  | _ => True

instance (item : ItemId) : DecidablePred (Call.FindsAlone item)
  | .update aloneNow _ => inferInstanceAs (Decidable (item ∈ aloneNow))
  | .copying _ => inferInstanceAs (Decidable True)
  | .copied _ _ => inferInstanceAs (Decidable True)

/-- Every update since one the delay ago at least has found the item alone. -/
def AloneThroughout (item : ItemId) (delay now : ℕ) (calls : List Call) : Prop :=
  Since (Call.AloneBefore item delay now) (Call.FindsAlone item) calls

instance (item : ItemId) (delay now : ℕ) (calls : List Call) :
    Decidable (AloneThroughout item delay now calls) :=
  inferInstanceAs (Decidable (Since _ _ calls))

/-- The item alone at two times the delay of ten apart; copied from then on; with a second copy
at eleven, alone again at twelve; and its copy failed. -/
def outlived : List Call :=
  [.update one 0, .update one 10, .copying ⟨1⟩, .update ∅ 11, .update one 12, .copied ⟨1⟩ false]

/-- The item alone, and its copy done. -/
def done : List Call := [.update one 0, .copying ⟨1⟩, .copied ⟨1⟩ true]

/-- The first is due at thirteen, though an update at eleven did not find it alone; the second
is not due at ten, though every update found it alone and it is not being copied. -/
theorem outlived_due :
    (⟨1⟩ ∈ ((exec (call 10) ∅ outlived).update one.toList 13 10).2 ∧
      ¬AloneThroughout ⟨1⟩ 10 13 (outlived ++ [.update one 13])) ∧
    (⟨1⟩ ∉ ((exec (call 10) ∅ done).update one.toList 10 10).2 ∧
      AloneThroughout ⟨1⟩ 10 10 (done ++ [.update one 10]) ∧ ¬BeingCopied ⟨1⟩ done) := by
  refine ⟨⟨?_, ?_⟩, ?_, ?_, ?_⟩ <;> decide +kernel

end Outlived

end AloneItems

end Distlib
