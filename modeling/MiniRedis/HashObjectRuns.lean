import MiniRedis.HashObject
import MiniRedis.DictGeometry

/-!
Runs of a `HashObject`.  The calls made so far, newest first, say what is stored
and since when; a ziplist is compared with them field by field.  Nothing is
assumed about the Dict of a promoted object beyond its geometry.
-/

namespace MiniRedis.HashObject

open AssocList

variable {hash : Bytes → Nat}

inductive Op where
  | set (field value : Bytes)
  | del (field : Bytes)
  | rehash (deadline : Nat)
  deriving DecidableEq, Repr

/-- One call on an object, answered by what `del_field` returns. -/
def step (hash : Bytes → Nat) : Op → HashObject → Exec (Option Bool × HashObject)
  | .set field value, o => do
      let o ← o.setField hash field value
      pure (none, o)
  | .del field, o => do
      let (b, o) ← o.delField hash field
      pure (some b, o)
  | .rehash deadline, o => do
      let o ← o.tryRehashForMs hash deadline
      pure (none, o)

/-! ## Histories -/

/-- The value the newest call on the field has set, if it has not deleted it. -/
def lastValue : List Op → Bytes → Option Bytes
  | [], _ => none
  | .set f value :: h, field => if f = field then some value else lastValue h field
  | .del f :: h, field => if f = field then none else lastValue h field
  | .rehash _ :: h, field => lastValue h field

/-- The number of the call, counted from 0, that first set the live field since
its last deletion. -/
def birth : List Op → Bytes → Nat
  | [], _ => 0
  | .set f _ :: h, field =>
      if f = field ∧ lastValue h field = none then h.length else birth h field
  | .del _ :: h, field | .rehash _ :: h, field => birth h field

theorem birth_lt {h : List Op} {field : Bytes} (hlive : lastValue h field ≠ none) :
    birth h field < h.length := by
  induction h with
  | nil => exact absurd rfl hlive
  | cons op h ih =>
    rw [List.length_cons]
    cases op with
    | set f value =>
      simp only [birth]
      split
      · exact Nat.lt_succ_self _
      · next hnot =>
        refine Nat.lt_succ_of_lt (ih fun hdead => ?_)
        have hne : f ≠ field := fun hf => hnot ⟨hf, hdead⟩
        exact hlive (by rw [lastValue, if_neg hne, hdead])
    | del f =>
      refine Nat.lt_succ_of_lt (ih fun hdead => hlive ?_)
      simp [lastValue, hdead]
    | rehash _ => exact Nat.lt_succ_of_lt (ih hlive)

/-- Setting a live field does not make it younger, nor does another field. -/
theorem birth_set {h : List Op} {f value field : Bytes} (hlive : lastValue h field ≠ none) :
    birth (.set f value :: h) field = birth h field :=
  if_neg fun hnot => hlive hnot.2

/-- A field deleted and set again is as young as its last insertion. -/
example : birth [.set [1] [9], .set [1] [8], .set [2] [7], .del [1], .set [1] [6]] [1] = 3 := rfl

theorem lastValue_set (h : List Op) (field value : Bytes) :
    lastValue (.set field value :: h) = Function.update (lastValue h) field (some value) := by
  funext k
  by_cases hk : field = k
  · subst hk
    rw [Function.update_self]
    exact if_pos rfl
  · rw [Function.update_of_ne (Ne.symm hk)]
    exact if_neg hk

theorem lastValue_del (h : List Op) (field : Bytes) :
    lastValue (.del field :: h) = Function.update (lastValue h) field none := by
  funext k
  by_cases hk : field = k
  · subst hk
    rw [Function.update_self]
    exact if_pos rfl
  · rw [Function.update_of_ne (Ne.symm hk)]
    exact if_neg hk

/-- The ziplist is within its limits and holds exactly the live fields of the
history, oldest first. -/
structure Timeline (h : List Op) (zl : Ziplist) : Prop where
  short : zl.length < ZIPLIST_MAX_ENTRIES
  small : ∀ kv ∈ zl, ¬ Oversize kv
  nodup : (keys zl).Nodup
  live : (fun k => zl.lookup k) = lastValue h
  oldest : (keys zl).Pairwise fun a b => birth h a < birth h b

theorem Timeline.mem_keys {h : List Op} {zl : Ziplist} (ht : Timeline h zl) {field : Bytes} :
    field ∈ keys zl ↔ lastValue h field ≠ none := by
  rw [← ht.live]
  exact (not_iff_comm.mp lookup_eq_none.symm).symm

/-- A new history in which the fields of the list are as old as before. -/
theorem oldest_of_same {h h' : List Op} {fields : List Bytes}
    (ho : fields.Pairwise fun a b => birth h a < birth h b)
    (hsame : ∀ a ∈ fields, birth h' a = birth h a) :
    fields.Pairwise fun a b => birth h' a < birth h' b :=
  ho.imp_of_mem fun ha hb hlt => by rw [hsame _ ha, hsame _ hb]; exact hlt

theorem Timeline.overwrite {h : List Op} {zl zl' : Ziplist} (ht : Timeline h zl)
    {field value : Bytes} (hsmall : ¬ Oversize (field, value))
    (hassign : assign field value zl = some zl') : Timeline (.set field value :: h) zl' := by
  obtain ⟨v₀, rest, hp, hp'⟩ := assign_perm hassign
  have hkeys := assign_keys hassign
  exact
    { short := by
        have hlen := congrArg List.length hkeys
        simp only [keys, List.length_map] at hlen
        rw [hlen]
        exact ht.short
      small := fun kv hkv => by
        rcases List.mem_cons.mp (hp'.mem_iff.mp hkv) with rfl | hrest
        · exact hsmall
        · exact ht.small kv (hp.mem_iff.mpr (List.mem_cons_of_mem _ hrest))
      nodup := hkeys ▸ ht.nodup
      live := by rw [lookup_overwrite ht.nodup hp hp', ht.live, lastValue_set]
      oldest := by
        rw [hkeys]
        exact oldest_of_same ht.oldest fun a ha => birth_set (ht.mem_keys.mp ha) }

theorem Timeline.append {h : List Op} {zl : Ziplist} (ht : Timeline h zl) {field value : Bytes}
    (hsmall : ¬ Oversize (field, value)) (hnew : field ∉ keys zl)
    (hroom : zl.length + 1 < ZIPLIST_MAX_ENTRIES) :
    Timeline (.set field value :: h) (zl ++ [(field, value)]) := by
  have hp := List.perm_append_singleton (field, value) zl
  have hdead : lastValue h field = none := by
    by_contra hlive
    exact hnew (ht.mem_keys.mpr hlive)
  exact
    { short := by simpa using hroom
      small := fun kv hkv => by
        rcases List.mem_append.mp hkv with hkv | hkv
        · exact ht.small kv hkv
        · rw [List.mem_singleton.mp hkv]
          exact hsmall
      nodup := (keys_perm hp).nodup_iff.mpr (List.nodup_cons.mpr ⟨hnew, ht.nodup⟩)
      live := by rw [lookup_insert ht.nodup hnew hp, ht.live, lastValue_set]
      oldest := by
        have hborn : birth (.set field value :: h) field = h.length := if_pos ⟨rfl, hdead⟩
        rw [keys, List.map_append, List.pairwise_append]
        refine ⟨oldest_of_same ht.oldest fun a ha => birth_set (ht.mem_keys.mp ha),
          List.pairwise_singleton _ _, fun a ha b hb => ?_⟩
        -- the new field is younger than every field that is there
        have hlive := ht.mem_keys.mp ha
        rw [List.mem_singleton.mp hb, hborn, birth_set hlive]
        exact birth_lt hlive }

theorem Timeline.unlink {h : List Op} {zl zl' : Ziplist} (ht : Timeline h zl) {field : Bytes}
    (hunlink : AssocList.unlink field zl = some zl') : Timeline (.del field :: h) zl' := by
  obtain ⟨v₀, hp⟩ := unlink_perm hunlink
  have hsub := unlink_sublist hunlink
  exact
    { short := Nat.lt_of_le_of_lt hsub.length_le ht.short
      small := fun kv hkv => ht.small kv (hsub.subset hkv)
      nodup := (hsub.map Prod.fst).nodup ht.nodup
      live := by rw [lookup_remove ht.nodup hp, ht.live, lastValue_del]
      oldest := ht.oldest.sublist (hsub.map Prod.fst) }

/-- Deleting a field that is not there. -/
theorem Timeline.missing {h : List Op} {zl : Ziplist} (ht : Timeline h zl) {field : Bytes}
    (hunlink : AssocList.unlink field zl = none) : Timeline (.del field :: h) zl where
  short := ht.short
  small := ht.small
  nodup := ht.nodup
  live := by
    have hnone := lookup_eq_none.mpr (unlink_eq_none.mp hunlink)
    rw [lastValue_del, ← ht.live, Function.update_eq_self_iff.mpr hnone.symm]
  oldest := ht.oldest

theorem timeline_nil : Timeline [] [] :=
  ⟨by decide, by simp, List.nodup_nil, rfl, List.Pairwise.nil⟩

/-! ## Objects -/

/-- The object is what the history makes of a fresh one: a ziplist in step with
the history, or a table. -/
inductive Tracks (hash : Bytes → Nat) (h : List Op) : HashObject → Prop
  | ziplist {zl : Ziplist} : Timeline h zl → Tracks hash h ⟨.ZIPLIST, .ziplist zl⟩
  | hashtable {d : Dict} : Dict.Geometry hash d → Tracks hash h ⟨.HASHTABLE, .hashtable d⟩

theorem insertAll_geometry (zl : Ziplist) {d : Dict} (hg : Dict.Geometry hash d) :
    ∃ d', insertAll hash zl d = .ok d' ∧ Dict.Geometry hash d' := by
  induction zl generalizing d with
  | nil => exact ⟨d, rfl, hg⟩
  | cons kv zl ih =>
    obtain ⟨d₁, hrun, hg₁⟩ := hg.setField kv.1 kv.2
    obtain ⟨d₂, hrest, hg₂⟩ := ih hg₁
    exact ⟨d₂, by simp [insertAll, hrun, hrest], hg₂⟩

theorem Tracks.set {h : List Op} {zl : Ziplist} (ht : Timeline h zl) (field value : Bytes) :
    ∃ o', setField hash field value ⟨.ZIPLIST, .ziplist zl⟩ = .ok o' ∧
      Tracks hash (.set field value :: h) o' := by
  rcases setField_ziplist hash zl field value with ⟨_, hrun⟩ | ⟨hstays, zl', hrun, hzl⟩
  · obtain ⟨d, hins, hg⟩ := insertAll_geometry (zl ++ [(field, value)]) Dict.new_geometry
    exact ⟨_, by rw [hrun, hins]; rfl, .hashtable hg⟩
  · refine ⟨_, hrun, .ziplist ?_⟩
    have hsmall : ¬ Oversize (field, value) := fun hbig => hstays (Or.inl hbig)
    rcases hzl with hassign | ⟨hassign, rfl⟩
    · exact ht.overwrite hsmall hassign
    · have hnew := assign_eq_none.mp hassign
      refine ht.append hsmall hnew ?_
      by_contra hfull
      exact hstays (Or.inr ⟨hnew, Or.inl (Nat.le_of_not_lt hfull)⟩)

theorem Tracks.del {h : List Op} {zl : Ziplist} (ht : Timeline h zl) (field : Bytes) :
    ∃ b o', delField hash field ⟨.ZIPLIST, .ziplist zl⟩ = .ok (b, o') ∧
      Tracks hash (.del field :: h) o' := by
  rcases delField_ziplist hash zl field with ⟨hunlink, hrun⟩ | ⟨zl', hunlink, hrun⟩
  · exact ⟨_, _, hrun, .ziplist (ht.missing hunlink)⟩
  · exact ⟨_, _, hrun, .ziplist (ht.unlink hunlink)⟩

/-- A table stays a table, whatever is called on it. -/
theorem step_hashtable {d : Dict} (hg : Dict.Geometry hash d) (op : Op) :
    ∃ a d', step hash op ⟨.HASHTABLE, .hashtable d⟩ = .ok (a, ⟨.HASHTABLE, .hashtable d'⟩) ∧
      Dict.Geometry hash d' := by
  cases op with
  | set field value =>
    obtain ⟨d', hrun, hg'⟩ := hg.setField field value
    exact ⟨none, d', by simp [step, setField, getHashtable, hrun], hg'⟩
  | del field =>
    obtain ⟨b, d', hrun, hg'⟩ := hg.delField field
    exact ⟨some b, d', by simp [step, delField, getHashtable, hrun], hg'⟩
  | rehash deadline =>
    obtain ⟨d', hrun, hg'⟩ := hg.tryRehashForMs deadline
    exact ⟨none, d', by simp [step, tryRehashForMs, getHashtable, hrun], hg'⟩

theorem step_tracks (h : List Op) (o : HashObject) (op : Op) (ht : Tracks hash h o) :
    ∃ a o', step hash op o = .ok (a, o') ∧ Tracks hash (op :: h) o' := by
  cases ht with
  | ziplist ht =>
    cases op with
    | set field value =>
      obtain ⟨o', hrun, ht'⟩ := @Tracks.set hash _ _ ht field value
      exact ⟨none, o', by simp [step, hrun], ht'⟩
    | del field =>
      obtain ⟨b, o', hrun, ht'⟩ := @Tracks.del hash _ _ ht field
      exact ⟨some b, o', by simp [step, hrun], ht'⟩
    | rehash deadline => exact ⟨none, _, rfl, .ziplist ⟨ht.1, ht.2, ht.3, ht.4, ht.5⟩⟩
  | hashtable hg =>
    obtain ⟨a, d', hrun, hg'⟩ := step_hashtable hg op
    exact ⟨a, _, hrun, .hashtable hg'⟩

/-- Whatever calls have led to it, `set_field` leads on. -/
theorem tracked_kept (hash : Bytes → Nat) : Kept hash fun o => ∃ h, Tracks hash h o where
  fresh := ⟨[], .ziplist timeline_nil⟩
  safe := fun o ⟨_, ht⟩ => by
    cases ht with
    | ziplist _ => exact .ziplist _
    | hashtable hg => exact .hashtable hg.toSane
  set := fun o field value ⟨h, ht⟩ => by
    obtain ⟨a, o', hrun, ht'⟩ := step_tracks h o (.set field value) ht
    obtain ⟨o₁, hset, hans⟩ := Exec.bind_eq_ok.mp hrun
    cases hans
    exact ⟨o', hset, _, ht'⟩

theorem run_hashtable {d : Dict} (hg : Dict.Geometry hash d) (ops : List Op) :
    ∃ answers d', Run.run (step hash) ops ⟨.HASHTABLE, .hashtable d⟩ =
      .ok (answers, ⟨.HASHTABLE, .hashtable d'⟩) := by
  have hstep : ∀ (o : HashObject) (op : Op),
      (∃ d, o = ⟨.HASHTABLE, .hashtable d⟩ ∧ Dict.Geometry hash d) →
      ∃ a o', step hash op o = .ok (a, o') ∧
        ∃ d, o' = ⟨.HASHTABLE, .hashtable d⟩ ∧ Dict.Geometry hash d := by
    rintro _ op ⟨d, rfl, hg⟩
    obtain ⟨a, d', hrun, hg'⟩ := step_hashtable hg op
    exact ⟨a, _, hrun, d', rfl, hg'⟩
  obtain ⟨answers, _, hrun, d', rfl, _⟩ := Run.invariant hstep ops _ ⟨d, rfl, hg⟩
  exact ⟨answers, d', hrun⟩

/-- **Representation.**  Every run from the constructor returns.  The object it
ends in is a ziplist exactly when the variant is, a ziplist is within its limits
and holds the live fields with their latest values, oldest first, and a table
stays one. -/
theorem run_keeps_representation (hash : Bytes → Nat) (ops : List Op) :
    ∃ answers o, Run.run (step hash) ops new = .ok (answers, o) ∧
      (o.encoding = .ZIPLIST ↔ ∃ zl, o.storage = .ziplist zl) ∧
      (∀ zl, o.storage = .ziplist zl →
        zl.length < 512 ∧ (∀ kv ∈ zl, kv.1.length ≤ 64 ∧ kv.2.length ≤ 64) ∧
        (keys zl).Nodup ∧
        (∀ field value, (field, value) ∈ zl ↔ lastValue ops.reverse field = some value) ∧
        zl.Pairwise fun a b => birth ops.reverse a.1 < birth ops.reverse b.1) ∧
      (o.encoding = .HASHTABLE → ∀ more, ∃ answers' o',
        Run.run (step hash) more o = .ok (answers', o') ∧ o'.encoding = .HASHTABLE) := by
  obtain ⟨answers, o, hrun, ht⟩ :=
    Run.history (R := Tracks hash) step_tracks ops [] new (.ziplist timeline_nil)
  rw [List.append_nil] at ht
  refine ⟨answers, o, hrun, ?_⟩
  cases ht with
  | @ziplist zl ht =>
    refine ⟨⟨fun _ => ⟨zl, rfl⟩, fun _ => rfl⟩, ?_, fun h => by cases h⟩
    rintro _ ⟨⟩
    refine ⟨ht.short, fun kv hkv => ?_, ht.nodup, fun field value => ?_, ?_⟩
    · have hsmall := ht.small kv hkv
      simp only [Oversize, ZIPLIST_MAX_ENTRY_SIZE] at hsmall
      omega
    · rw [← ht.live]
      exact (lookup_eq_some ht.nodup).symm
    · have holdest := ht.oldest
      rwa [keys, List.pairwise_map] at holdest
  | @hashtable d hg =>
    refine ⟨⟨fun h => (by cases h), ?_⟩, fun _ h => (by cases h), fun _ more => ?_⟩
    · rintro ⟨_, h⟩
      cases h
    · obtain ⟨answers', d', hmore⟩ := run_hashtable hg more
      exact ⟨answers', _, hmore, rfl⟩

end MiniRedis.HashObject
