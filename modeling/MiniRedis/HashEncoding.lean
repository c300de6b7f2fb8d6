import Mathlib.Data.Finset.Card
import MiniRedis.HashObjectRuns

/-!
When a hash stops being a ziplist.  The plain set of its live fields tells: a
field or value over 64 bytes, or a new field that would be the 512th.  Neither the
hash function nor what is called behind it has a say in that.
-/

namespace MiniRedis.HashObject

open AssocList

variable {hash : Bytes → Nat} {h : List Op} {zl : Ziplist} {field : Bytes}

/-- The live fields of a plain map. -/
def liveFields (F : Finset Bytes) : Op → Finset Bytes
  | .set field _ => insert field F
  | .del field => F.erase field
  | .rehash _ => F

/-- The call that a ziplist with these fields does not survive. -/
def Outgrows (F : Finset Bytes) : Op → Prop
  | .set field value =>
      Oversize (field, value) ∨ field ∉ F ∧ ZIPLIST_MAX_ENTRIES ≤ F.card + 1
  | .del _ | .rehash _ => False

instance (F : Finset Bytes) : (op : Op) → Decidable (Outgrows F op)
  | .set _ _ => inferInstanceAs (Decidable (_ ∨ _))
  | .del _ | .rehash _ => .isFalse id

/-! ## Histories -/

def liveAfter (h : List Op) : Finset Bytes := h.foldr (fun op F => liveFields F op) ∅

theorem mem_liveAfter : field ∈ liveAfter h ↔ lastValue h field ≠ none := by
  induction h with
  | nil => exact iff_of_false (Finset.notMem_empty field) fun hne => hne rfl
  | cons op h ih =>
    change field ∈ liveFields (liveAfter h) op ↔ _
    cases op with
    | set f value =>
      rw [liveFields, Finset.mem_insert, ih, lastValue]
      by_cases hf : f = field
      · simp [hf]
      · simp [hf, Ne.symm hf]
    | del f =>
      rw [liveFields, Finset.mem_erase, ih, lastValue]
      by_cases hf : f = field
      · simp [hf]
      · simp [hf, Ne.symm hf]
    | rehash _ => exact ih

theorem Timeline.mem_iff (ht : Timeline h zl) : field ∈ keys zl ↔ field ∈ liveAfter h :=
  ht.mem_keys.trans mem_liveAfter.symm

theorem Timeline.card (ht : Timeline h zl) : zl.length = (liveAfter h).card := by
  have hfields : (keys zl).toFinset = liveAfter h := by
    ext field
    rw [List.mem_toFinset, ht.mem_iff]
  rw [← hfields, List.toFinset_card_of_nodup ht.nodup, keys, List.length_map]

/-- What promotes a ziplist can be read off its fields. -/
theorem Timeline.promotes_iff (ht : Timeline h zl) (field value : Bytes) :
    Promotes zl field value ↔ Outgrows (liveAfter h) (.set field value) := by
  have hsmall : ¬ ∃ kv ∈ zl, Oversize kv := by
    rintro ⟨kv, hkv, hbig⟩
    exact ht.small kv hkv hbig
  rw [Promotes, Outgrows, ht.mem_iff, ht.card]
  simp only [hsmall, or_false, ge_iff_le]

/-! ## One call -/

theorem setField_encoding (ht : Timeline h zl) {value : Bytes} {o' : HashObject}
    (hrun : setField hash field value ⟨.ZIPLIST, .ziplist zl⟩ = .ok o') :
    o'.encoding = .HASHTABLE ↔ Outgrows (liveAfter h) (.set field value) := by
  rw [← ht.promotes_iff]
  rcases setField_ziplist hash zl field value with ⟨hp, hrun'⟩ | ⟨hstays, zl', hrun', _⟩
  · rw [hrun'] at hrun
    obtain ⟨d, _, hans⟩ := Exec.bind_eq_ok.mp hrun
    cases hans
    exact iff_of_true rfl hp
  · rw [hrun'] at hrun
    cases hrun
    exact iff_of_false (fun h => by cases h) hstays

theorem delField_encoding {b : Bool} {o' : HashObject}
    (hrun : delField hash field ⟨.ZIPLIST, .ziplist zl⟩ = .ok (b, o')) :
    o'.encoding = .ZIPLIST := by
  rcases delField_ziplist hash zl field with ⟨_, hrun'⟩ | ⟨zl', _, hrun'⟩
  · rw [hrun'] at hrun
    cases hrun
    rfl
  · rw [hrun'] at hrun
    cases hrun
    rfl

theorem step_encoding (ht : Timeline h zl) {op : Op} {a : Option Bool} {o' : HashObject}
    (hrun : step hash op ⟨.ZIPLIST, .ziplist zl⟩ = .ok (a, o')) :
    o'.encoding = .HASHTABLE ↔ Outgrows (liveAfter h) op := by
  cases op with
  | set field value =>
    obtain ⟨o₁, hset, hans⟩ := Exec.bind_eq_ok.mp hrun
    cases hans
    exact setField_encoding ht hset
  | del field =>
    obtain ⟨r, hdel, hans⟩ := Exec.bind_eq_ok.mp hrun
    cases hans
    refine iff_of_false (fun htable => ?_) id
    rw [delField_encoding hdel] at htable
    cases htable
  | rehash deadline =>
    cases hrun
    exact iff_of_false (fun h => by cases h) id

/-- A ziplist with a history that leaves these fields. -/
def InZiplist (o : HashObject) (F : Finset Bytes) : Prop :=
  ∃ h zl, o = ⟨.ZIPLIST, .ziplist zl⟩ ∧ Timeline h zl ∧ liveAfter h = F

def InTable (hash : Bytes → Nat) (o : HashObject) : Prop :=
  ∃ d, o = ⟨.HASHTABLE, .hashtable d⟩ ∧ Dict.Geometry hash d

theorem step_ziplist (o : HashObject) (F : Finset Bytes) (op : Op) (h : InZiplist o F) :
    ∃ a o', step hash op o = .ok (a, o') ∧
      (Outgrows F op ∧ InTable hash o' ∨ ¬ Outgrows F op ∧ InZiplist o' (liveFields F op)) := by
  obtain ⟨h, zl, rfl, ht, rfl⟩ := h
  obtain ⟨a, o', hrun, ht'⟩ := step_tracks h _ op (.ziplist ht)
  have hiff := step_encoding ht hrun
  refine ⟨a, o', hrun, ?_⟩
  cases ht' with
  | ziplist ht' =>
    have hfits : ¬ Outgrows (liveAfter h) op := fun hout => by cases hiff.mpr hout
    exact Or.inr ⟨hfits, _, _, rfl, ht', rfl⟩
  | hashtable hg => exact Or.inl ⟨hiff.mp rfl, _, rfl, hg⟩

theorem step_table (o : HashObject) (op : Op) (h : InTable hash o) :
    ∃ a o', step hash op o = .ok (a, o') ∧ InTable hash o' := by
  obtain ⟨d, rfl, hg⟩ := h
  obtain ⟨a, d', hrun, hg'⟩ := step_hashtable hg op
  exact ⟨a, _, hrun, d', rfl, hg'⟩

/-! ## Runs -/

/-- **Promotion.**  A run from the constructor ends in a table exactly when some
`set_field` of it gave the object a field or value over the bound, or a field it
did not have while it had 511. -/
theorem run_promotes_iff (hash : Bytes → Nat) (ops : List Op) :
    ∃ answers o, Run.run (step hash) ops new = .ok (answers, o) ∧
      (o.encoding = .HASHTABLE ↔ Run.Tripped liveFields Outgrows ∅ ops) := by
  have hnew : InZiplist new ∅ := ⟨[], [], rfl, timeline_nil, rfl⟩
  obtain ⟨answers, o, hrun, ⟨htripped, htable⟩ | ⟨hnot, hziplist⟩⟩ :=
    Run.latch (@step_ziplist hash) step_table ops new ∅ hnew
  · obtain ⟨d, rfl, _⟩ := htable
    exact ⟨answers, _, hrun, iff_of_true rfl htripped⟩
  · obtain ⟨_, zl, rfl, _⟩ := hziplist
    exact ⟨answers, _, hrun, iff_of_false (fun h => by cases h) hnot⟩

end MiniRedis.HashObject
