import Wasmtime.Concurrent.TableRuns

/-!
# What a failed call leaves in a table

`delete` takes the entry out and only then asks whether it has the type that was asked for;
`add_child` and `remove_child` change the child's parent and only then look the parent up.

`Op.Clean` is what has to hold beforehand, and `fails_unchanged_iff` says that it is exact for every
table, sound or not.
-/

namespace Wasmtime.Concurrent.Table

open Base Prog

variable {α β : Type} {t t' : Table α} {key : Nat} {build : Build} {e : TableEntry α}

def FailsUnchanged (m : Prog (Table α) TableError β) (t : Table α) : Prop :=
  ∀ x t', m t = (.err x, t') → t' = t

/-- The entry can be taken out: no child is left, and its parent is there, with the entry on its
list where that is checked. -/
def Loose (checked : Bool) (t : Table α) (key : Nat) (e : TableEntry α) : Prop :=
  e.children = [] ∧ ∀ p, e.parent = some p → p ≠ key ∧
    ∃ e', t.occupied? p = some e' ∧ (checked = true → key ∈ e'.children)

/-- The entry has the type asked for, or it is a tombstone that stays one. -/
def Claimable (t : Table α) (as : α → Option β) (e : TableEntry α) : Prop :=
  (e.entry.bind as).isSome = true ∨ t.debug = true ∧ e = tombstone

/-- What has to hold for the call to fail without a trace. -/
def Op.Clean (build : Build) (t : Table α) : Op α → Prop
  | .addChild child parent =>
    t.occupied? child ≠ none → t.parent? child = none → t.occupied? parent ≠ none
  | .removeChild child parent => t.parent? child = some parent → t.occupied? parent ≠ none
  | .delete as key => ∀ e, t.occupied? key = some e → Loose true t key e → Claimable t as e
  | .hostDelete owned as key => (build.debugAssertions = true → owned = true) →
    ∀ e, t.occupied? key = some e → Loose build.debugAssertions t key e → Claimable t as e
  | _ => True

/-! ### Deletion -/

/-- `delete_entry` of the two tables, by the way a child is taken off its list. -/
def deleteEntryWith (erase : Nat → Nat → Prog (Table α) TableError Unit) (key : Nat) :
    Prog (Table α) TableError (TableEntry α) := do
  let e ← occupied key
  if e.children ≠ [] then
    Prog.err .hasChildren
  else
    let e ← freeEntry key
    match e.parent with
    | none => pure e
    | some parent => do
      expect (erase parent key) (.unwrap "missing parent")
      pure e

theorem host_deleteEntry_eq_with : (Host.deleteEntry build : Nat → Prog (Table α) _ _) =
    deleteEntryWith (Host.eraseChild build) := rfl

/-- A way to take a child off its list, which may check that it is there. -/
def Erases (checked : Bool) (erase : Nat → Nat → Prog (Table α) TableError Unit) : Prop :=
  ∀ p key t t', erase p key t = (.ok (), t') ↔ ∃ e, t.occupied? p = some e ∧
    (checked = true → key ∈ e.children) ∧
      t' = t.setEntry p { e with children := e.children.erase key }

theorem eraseChild_erases : Erases true (eraseChild (α := α)) := by
  intro p key t t'
  simp only [eraseChild, bind_ok, occupied_ok, assert_ok, modify_ok,
    decide_eq_true_eq, true_implies]
  constructor
  · rintro ⟨e, _, ⟨he, rfl⟩, _, _, ⟨hm, rfl⟩, rfl⟩
    exact ⟨e, he, hm, rfl⟩
  · rintro ⟨e, he, hm, rfl⟩
    exact ⟨e, t, ⟨he, rfl⟩, (), t, ⟨hm, rfl⟩, rfl⟩

theorem host_eraseChild_erases :
    Erases build.debugAssertions (Host.eraseChild (α := α) build) := by
  intro p key t t'
  unfold Host.eraseChild debugAssert
  simp only [bind_ok, occupied_ok, modify_ok]
  constructor
  · rintro ⟨e, _, ⟨he, rfl⟩, _, _, rfl, ha⟩
    refine ⟨e, he, ?_⟩
    split_ifs at ha with hb
    · obtain ⟨hm, hsame⟩ := assert_ok.1 ha
      exact ⟨fun _ => of_decide_eq_true hm, hsame⟩
    · exact ⟨fun h => absurd h hb, (pure_ok.1 ha).2⟩
  · rintro ⟨e, he, hm, rfl⟩
    refine ⟨e, t, ⟨he, rfl⟩, (), _, rfl, ?_⟩
    split_ifs with hb
    · exact assert_ok.2 ⟨decide_eq_true (hm hb), rfl⟩
    · rfl

theorem occupied?_freed (ho : t.occupied? key = some e) (j : Nat) : (t.freed key).occupied? j =
    if j = key then (if t.debug then some tombstone else none) else t.occupied? j := by
  unfold freed
  split_ifs with hd hj hj
  · rw [occupied?_setEntry ho, if_pos hj]
  · rw [occupied?_setEntry ho, if_neg hj]
  · exact (occupied?_set t key _ _ _ (lt_of_occupied ho) j).trans (if_pos hj)
  · exact (occupied?_set t key _ _ _ (lt_of_occupied ho) j).trans (if_neg hj)

section

variable {checked : Bool} {erase : Nat → Nat → Prog (Table α) TableError Unit}

theorem deleteEntryWith_ok : deleteEntryWith erase key t = (.ok e, t') ↔
    t.occupied? key = some e ∧ e.children = [] ∧ ((e.parent = none ∧ t' = t.freed key) ∨
        ∃ p, e.parent = some p ∧ erase p key (t.freed key) = (.ok (), t')) := by
  unfold deleteEntryWith
  cases ho : t.occupied? key with
  | none =>
    rw [run_bind_err (occupied_err ho)]
    simp
  | some e0 =>
    rw [run_bind_ok (occupied_run ho)]
    by_cases hc : e0.children = []
    · rw [if_neg (not_not_intro hc), run_bind_ok (freeEntry_run ho)]
      cases hp : e0.parent with
      | none =>
        constructor
        · intro h
          cases h
          exact ⟨rfl, hc, .inl ⟨hp, rfl⟩⟩
        · rintro ⟨heq, -, ⟨-, rfl⟩ | ⟨p, hp', -⟩⟩
          · cases heq
            rfl
          · cases heq
            cases hp.symm.trans hp'
      | some p =>
        constructor
        · intro h
          obtain ⟨_, _, hx, hpure⟩ := bind_ok.1 h
          cases hpure
          exact ⟨rfl, hc, .inr ⟨p, hp, expect_ok.1 hx⟩⟩
        · rintro ⟨heq, -, ⟨hnone, -⟩ | ⟨q, hq, hx⟩⟩
          · cases heq
            cases hp.symm.trans hnone
          · cases heq
            cases hp.symm.trans hq
            exact run_bind_ok (expect_ok.2 hx)
    · rw [if_pos hc]
      refine iff_of_false (fun h => by cases h) ?_
      rintro ⟨heq, hnil, -⟩
      cases heq
      exact hc hnil

theorem deleteEntryWith_err {x : TableError}
    (h : deleteEntryWith erase key t = (.err x, t')) : t' = t := by
  unfold deleteEntryWith at h
  cases ho : t.occupied? key with
  | none =>
    rw [run_bind_err (occupied_err ho)] at h
    cases h
    rfl
  | some e =>
    rw [run_bind_ok (occupied_run ho)] at h
    by_cases hc : e.children = []
    · rw [if_neg (not_not_intro hc), run_bind_ok (freeEntry_run ho)] at h
      cases hp : e.parent with
      | none =>
        rw [hp] at h
        cases h
      | some p =>
        rw [hp] at h
        have hsafe := (Prog.Infallible.expect (erase p key) (.unwrap "missing parent")).bind
          fun _ => .pure e
        exact absurd h (hsafe _ _ _)
    · rw [if_pos hc] at h
      cases h
      rfl

theorem deleteEntryWith_run (he : Erases checked erase) (ho : t.occupied? key = some e)
    (hl : Loose checked t key e) : ∃ t', deleteEntryWith erase key t = (.ok e, t') ∧
      t'.occupied? key = if t.debug then some tombstone else none := by
  have hkey := occupied?_freed ho key
  rw [if_pos rfl] at hkey
  cases hp : e.parent with
  | none => exact ⟨_, deleteEntryWith_ok.2 ⟨ho, hl.1, .inl ⟨hp, rfl⟩⟩, hkey⟩
  | some p =>
    obtain ⟨hne, e', ho', hm⟩ := hl.2 p hp
    have hpar : (t.freed key).occupied? p = some e' := by
      rw [occupied?_freed ho, if_neg hne, ho']
    refine ⟨_, deleteEntryWith_ok.2 ⟨ho, hl.1, .inr ⟨p, hp, (he _ _ _ _).2 ⟨e', hpar, hm, rfl⟩⟩⟩, ?_⟩
    rw [occupied?_setEntry hpar, if_neg (Ne.symm hne), hkey]

theorem loose_of_deleteEntryWith (he : Erases checked erase)
    (hd : t.debug = true → checked = true) (h : deleteEntryWith erase key t = (.ok e, t')) :
    t.occupied? key = some e ∧ Loose checked t key e := by
  obtain ⟨ho, hc, hrest⟩ := deleteEntryWith_ok.1 h
  refine ⟨ho, hc, fun p hp => ?_⟩
  rcases hrest with ⟨hnone, -⟩ | ⟨q, hq, hx⟩
  · cases hp.symm.trans hnone
  cases hp.symm.trans hq
  obtain ⟨e', ho', hm, -⟩ := (he _ _ _ _).1 hx
  rw [occupied?_freed ho] at ho'
  by_cases hne : p = key
  · rw [if_pos hne] at ho'
    split_ifs at ho' with hdebug
    cases ho'
    cases hm (hd hdebug)
  · rw [if_neg hne] at ho'
    exact ⟨hne, e', ho', hm⟩

theorem setEntry_self (ho : t.occupied? key = some e) : t.setEntry key e = t := by
  have hget : t.entries[key]? = some (.occupied e) := by
    unfold occupied? at ho
    rcases hk : t.entries[key]? with _ | n | e0
    · rw [hk] at ho
      cases ho
    · rw [hk] at ho
      cases ho
    · rw [hk] at ho
      cases ho
      rfl
  obtain ⟨hlt, heq⟩ := List.getElem?_eq_some_iff.1 hget
  unfold setEntry
  rw [← heq, List.set_getElem_self]

theorem deleteWith_unchanged_iff (he : Erases checked erase)
    (hd : t.debug = true → checked = true) (as : α → Option β) :
    FailsUnchanged (do let e ← deleteEntryWith erase key; orErr (e.entry.bind as) .wrongType) t ↔
      ∀ e, t.occupied? key = some e → Loose checked t key e → Claimable t as e := by
  constructor
  · intro h e ho hl
    obtain ⟨t', hdel, hkey⟩ := deleteEntryWith_run he ho hl
    cases hb : e.entry.bind as with
    | some b => exact .inl (by rw [hb]; rfl)
    | none =>
      have hrun : (do let e ← deleteEntryWith erase key; orErr (e.entry.bind as) .wrongType :
          Prog (Table α) TableError β) t = (.err .wrongType, t') := by
        rw [run_bind_ok hdel, hb]
        rfl
      rw [h _ _ hrun, ho] at hkey
      split_ifs at hkey with hdebug
      exact .inr ⟨hdebug, Option.some.inj hkey⟩
  · intro h x t' hx
    rcases hdel : deleteEntryWith erase key t with ⟨o, t1⟩
    cases o with
    | ok e =>
      obtain ⟨ho, hl⟩ := loose_of_deleteEntryWith he hd hdel
      rw [run_bind_ok hdel] at hx
      rcases h e ho hl with hsome | ⟨hdebug, rfl⟩
      · obtain ⟨b, hb⟩ := Option.isSome_iff_exists.1 hsome
        rw [hb] at hx
        cases hx
      · cases hx
        rcases (deleteEntryWith_ok.1 hdel).2.2 with ⟨-, rfl⟩ | ⟨p, hp, -⟩
        · unfold freed
          rw [if_pos hdebug, setEntry_self ho]
        · cases hp
    | err y =>
      rw [run_bind_err hdel] at hx
      cases hx
      exact deleteEntryWith_err hdel
    | panic p =>
      rw [run_bind_panic hdel] at hx
      cases hx

end

/-! ### All calls -/

theorem eq_of_push_err {x : TableError} (h : push_ e t = (.err x, t')) : t' = t := by
  unfold push_ at h
  rcases hp : popFreeList t with ⟨o, t1⟩
  cases o with
  | ok ix =>
    rw [run_bind_ok hp] at h
    rcases popFreeList_ok hp with ⟨rfl, rfl⟩ | ⟨i, next, rfl, -, rfl⟩
    · dsimp only at h
      rw [run_get_bind] at h
      split_ifs at h
      · cases h
      · cases h
        rfl
    · dsimp only at h
      rw [run_get_bind, run_set_bind] at h
      exact absurd h (((Prog.Infallible.assert _ _).bind fun _ => .pure i) _ _ _)
  | err y =>
    unfold popFreeList at hp
    rw [run_get_bind] at hp
    rcases hf : t.freeHead with _ | ix
    · rw [hf] at hp
      cases hp
    · rw [hf] at hp
      dsimp only at hp
      rcases hi : t.entries[ix]? with _ | next | e0 <;> rw [hi] at hp <;> cases hp
  | panic p =>
    rw [run_bind_panic hp] at h
    cases h

theorem pushChild_err {a : α} {parent : Nat} {x : TableError}
    (h : Host.pushChild build a parent t = (.err x, t')) : t' = t := by
  unfold Host.pushChild at h
  cases ho : t.occupied? parent with
  | none =>
    rw [run_bind_err (occupied_err ho)] at h
    cases h
    rfl
  | some e =>
    rw [run_bind_ok (occupied_run ho)] at h
    rcases hp : push_ { entry := some a, parent := some parent, children := [] } t with ⟨o, t1⟩
    cases o with
    | ok c =>
      -- The parent is where it was: the new entry took another cell.
      obtain ⟨hnew, -, hocc⟩ := occupied_push_ hp
      have ho1 : t1.occupied? parent = some e := by
        rw [hocc, if_neg, ho]
        rintro rfl
        cases ho.symm.trans hnew
      rw [run_bind_ok hp, Host.insertChild] at h
      rw [run_bind, run_bind_ok (occupied_run ho1)] at h
      rcases debugAssert_cases (ε := TableError) build (decide (c ∉ e.children))
        (.assert "!self.children.contains(&child)") t1 with hd | hd
      · rw [run_bind_ok hd] at h
        cases h
      · rw [run_bind_panic hd] at h
        cases h
    | err y =>
      rw [run_bind_err hp] at h
      cases h
      exact eq_of_push_err hp
    | panic p =>
      rw [run_bind_panic hp] at h
      cases h

theorem failsUnchanged_discard {m : Prog (Table α) TableError β} :
    FailsUnchanged (do let _ ← m : Prog (Table α) TableError Unit) t ↔ FailsUnchanged m t := by
  rcases hm : m t with ⟨o, t1⟩
  have hrun := run_bind_pure hm fun _ => ()
  constructor
  · intro h x t' hx
    cases hm.symm.trans hx
    exact h _ _ hrun
  · intro h x t' hx
    cases o with
    | ok b | panic p => cases hrun.symm.trans hx
    | err y =>
      cases hrun.symm.trans hx
      exact h _ _ hm

theorem addChild_unchanged_iff {child parent : Nat} :
    FailsUnchanged (addChild child parent) t ↔
      (t.occupied? child ≠ none → t.parent? child = none → t.occupied? parent ≠ none) := by
  constructor
  · intro h hne hroot hpar
    obtain ⟨e, ho⟩ := Option.ne_none_iff_exists'.1 hne
    have hp : e.parent = none := by simpa [parent?, ho] using hroot
    have hchild : parent ≠ child := by
      rintro rfl
      exact hne hpar
    have hpar' : (t.setEntry child { e with parent := some parent }).occupied? parent = none := by
      rw [occupied?_setEntry ho, if_neg hchild, hpar]
    have hrun : addChild child parent t =
        (.err .notPresent, t.setEntry child { e with parent := some parent }) := by
      unfold addChild insertChild
      rw [run_bind_ok (occupied_run ho), assert, if_pos (decide_eq_true hp),
        run_pure_bind, run_modify_bind, run_bind_err (occupied_err hpar')]
    have hsame := congrArg (fun t => t.parent? child) (h _ _ hrun)
    rw [(setParent_ok ho (some parent)).2.1, if_pos rfl, hroot] at hsame
    cases hsame
  · intro h x t' hx
    rcases addChild_err hx with ⟨-, rfl⟩ | ⟨e, ho, hp, hpar, -⟩
    · rfl
    · exact absurd hpar (h (by simp [ho]) (by simp [parent?, ho, hp]))

theorem removeChild_unchanged_iff {child parent : Nat} :
    FailsUnchanged (removeChild child parent) t ↔
      (t.parent? child = some parent → t.occupied? parent ≠ none) := by
  constructor
  · intro h hpc hpar
    cases ho : t.occupied? child with
    | none => simp [parent?, ho] at hpc
    | some e =>
      have hp : e.parent = some parent := by simpa [parent?, ho] using hpc
      have hchild : parent ≠ child := by
        rintro rfl
        cases ho.symm.trans hpar
      have hpar' : (t.setEntry child { e with parent := none }).occupied? parent = none := by
        rw [occupied?_setEntry ho, if_neg hchild, hpar]
      have hrun : removeChild child parent t =
          (.err .notPresent, t.setEntry child { e with parent := none }) := by
        unfold removeChild eraseChild
        rw [run_bind_ok (occupied_run ho), assert, if_pos (decide_eq_true hp),
          run_pure_bind, run_modify_bind, run_bind_err (occupied_err hpar')]
      have hsame := congrArg (fun t => t.parent? child) (h _ _ hrun)
      rw [(setParent_ok ho none).2.1, if_pos rfl, hpc] at hsame
      cases hsame
  · intro h x t' hx
    rcases removeChild_err hx with ⟨-, rfl⟩ | ⟨e, ho, hp, hpar, -⟩
    · rfl
    · exact absurd hpar (h (by simp [parent?, ho, hp]))

theorem hostDelete_unchanged_iff {owned : Bool} {as : α → Option β} (hd : t.debug = false) :
    FailsUnchanged (Host.delete build owned as key) t ↔
      ((build.debugAssertions = true → owned = true) →
        ∀ e, t.occupied? key = some e → Loose build.debugAssertions t key e →
          Claimable t as e) := by
  by_cases howned : build.debugAssertions = true → owned = true
  · have hassert : (debugAssert build owned (.assert "resource.owned()") :
        Prog (Table α) TableError Unit) t = (.ok (), t) := by
      unfold debugAssert
      split_ifs with hb
      · exact assert_ok.2 ⟨howned hb, rfl⟩
      · rfl
    rw [forall_prop_of_true howned]
    refine Iff.trans ?_ (deleteWith_unchanged_iff host_eraseChild_erases (by simp [hd]) as)
    unfold FailsUnchanged Host.delete
    rw [run_bind_ok hassert, host_deleteEntry_eq_with]
  · obtain ⟨hb, hnot⟩ := Classical.not_imp.1 howned
    refine iff_of_true (fun x t' hx => ?_) fun h => absurd h howned
    unfold Host.delete debugAssert assert at hx
    rw [if_pos hb, if_neg hnot] at hx
    cases hx

/-- **When a failed call leaves the table as it was.** `ResourceTable` has no debug mode. -/
theorem fails_unchanged_iff (build : Build) (t : Table α) (op : Op α)
    (hhost : (∃ owned as key, op = .hostDelete owned as key) → t.debug = false) :
    FailsUnchanged (op.exec build) t ↔ op.Clean build t := by
  cases op with
  | push a => exact iff_of_true (failsUnchanged_discard.2 fun _ _ h => eq_of_push_err h) trivial
  | get as key =>
    refine iff_of_true (failsUnchanged_discard.2 fun x t' h => ?_) trivial
    exact (congrArg Prod.snd h).symm.trans (get_state as key t).1
  | pushChild a parent =>
    exact iff_of_true (failsUnchanged_discard.2 fun _ _ h => pushChild_err h) trivial
  | hostDelete owned as key =>
    exact failsUnchanged_discard.trans (hostDelete_unchanged_iff (hhost ⟨owned, as, key, rfl⟩))
  | addChild child parent => exact addChild_unchanged_iff
  | removeChild child parent => exact removeChild_unchanged_iff
  | delete as key =>
    refine failsUnchanged_discard.trans ?_
    exact deleteWith_unchanged_iff eraseChild_erases (fun _ => rfl) as
  | enableDebug enable => exact iff_of_true (fun x t' h => by cases h) trivial

/-- A delete that asks for another type takes the entry out all the same. -/
theorem wrong_type_frees :
    ∃ t : Table Nat, Trace (Step ⟨false, false⟩) Table.new [.push 7] t ∧ t.value? 0 = some 7 ∧
      ∃ t', Op.exec ⟨false, false⟩ (.hostDelete true (fun _ => none) 0) t = (.err .wrongType, t') ∧
        Op.exec ⟨false, false⟩ (.delete (fun _ => none) 0) t = (.err .wrongType, t') ∧
          t'.value? 0 = none ∧ t'.freeHead = some 0 :=
  ⟨_, .single ⟨_, rfl, rfl⟩, rfl, _, rfl, rfl, rfl, rfl⟩

def parentAndChild : Table Nat where
  entries := [.occupied { entry := some 7, parent := none, children := [1] },
    .occupied { entry := some 8, parent := some 0, children := [] }]
  freeHead := none
  debug := false

/-- An entry that still has a child is not taken out, whatever type is asked for. -/
theorem fails_unchanged_parent :
    Trace (Step ⟨true, true⟩) Table.new [.push 7, .pushChild 8 0] parentAndChild ∧
      Op.exec ⟨true, true⟩ (.hostDelete true (fun _ => none) 0) parentAndChild =
        (.err .hasChildren, parentAndChild) := by
  refine ⟨.cons ⟨_, rfl, rfl⟩ (.single ⟨_, rfl, rfl⟩), ?_⟩
  have hclean : Op.Clean ⟨true, true⟩ parentAndChild (.hostDelete true (fun _ => none) 0) := by
    intro _ e ho hloose
    cases ho
    cases hloose.1
  exact Prod.ext rfl ((fails_unchanged_iff _ _ _ fun _ => rfl).2 hclean .hasChildren _ rfl)

end Wasmtime.Concurrent.Table
