import MiniRedis.DictMap

/-!
`HashObject`: a ziplist of pairs until it grows too long or an entry too large,
a `Dict` from then on.  The encoding tag and the variant are separate fields,
as in the source, and reading the variant that is not there throws.
-/

namespace MiniRedis

open AssocList

/-- `HashObject.hpp`'s `ObjectEncoding`. -/
inductive ObjectEncoding where
  | ZIPLIST
  | HASHTABLE
  deriving DecidableEq, Repr

abbrev Ziplist := List HashEntry

/-- The variant `storage_`. -/
inductive Storage where
  | ziplist (zl : Ziplist)
  | hashtable (d : Dict)
  deriving DecidableEq, Repr

structure HashObject where
  encoding : ObjectEncoding
  storage : Storage
  deriving DecidableEq, Repr

namespace HashObject

def ZIPLIST_MAX_ENTRIES : Nat := 512
def ZIPLIST_MAX_ENTRY_SIZE : Nat := 64

/-- `HashObject::HashObject`. -/
def new : HashObject := ⟨.ZIPLIST, .ziplist []⟩

/-- `std::bad_variant_access`. -/
def badVariantAccess : Fault := .exception (bytes "std::get: wrong index for variant")

def getZiplist (o : HashObject) : Exec Ziplist :=
  match o.storage with
  | .ziplist zl => pure zl
  | .hashtable _ => throw badVariantAccess

def getHashtable (o : HashObject) : Exec Dict :=
  match o.storage with
  | .ziplist _ => throw badVariantAccess
  | .hashtable d => pure d

/-- A field or a value too large for a ziplist. -/
def Oversize (kv : HashEntry) : Prop :=
  kv.1.length > ZIPLIST_MAX_ENTRY_SIZE ∨ kv.2.length > ZIPLIST_MAX_ENTRY_SIZE

instance (kv : HashEntry) : Decidable (Oversize kv) := inferInstanceAs (Decidable (_ ∨ _))

def shouldUseZiplist (o : HashObject) : Exec Bool :=
  if o.encoding ≠ .ZIPLIST then pure false
  else do
    let zl ← o.getZiplist
    if zl.length ≥ ZIPLIST_MAX_ENTRIES then pure false
    else pure (decide (∀ kv ∈ zl, ¬ Oversize kv))

/-- The loop of `promote_to_hashtable`. -/
def insertAll (hash : Bytes → Nat) : Ziplist → Dict → Exec Dict
  | [], newDict => pure newDict
  | kv :: zl, newDict => do
      let newDict ← newDict.setField hash kv.1 kv.2
      insertAll hash zl newDict

def promoteToHashtable (hash : Bytes → Nat) (o : HashObject) : Exec HashObject :=
  if o.encoding ≠ .ZIPLIST then pure o
  else do
    let zl ← o.getZiplist
    let newDict ← insertAll hash zl Dict.new
    pure ⟨.HASHTABLE, .hashtable newDict⟩

/-- `HashObject::set_field`: sizes are checked before the insertion, the number
of entries after it and only when the field is new. -/
def setField (hash : Bytes → Nat) (field value : Bytes) (o : HashObject) : Exec HashObject := do
  let o ← if o.encoding = .ZIPLIST ∧ Oversize (field, value) then o.promoteToHashtable hash
    else pure o
  if o.encoding = .ZIPLIST then do
    let zl ← o.getZiplist
    match assign field value zl with
    | some zl => pure { o with storage := .ziplist zl }
    | none => do
        let o := { o with storage := .ziplist (zl ++ [(field, value)]) }
        if ← o.shouldUseZiplist then pure o else o.promoteToHashtable hash
  else do
    let d ← o.getHashtable
    let d ← d.setField hash field value
    pure { o with storage := .hashtable d }

def getField (hash : Bytes → Nat) (field : Bytes) (o : HashObject) : Exec (Option Bytes) :=
  if o.encoding = .ZIPLIST then do
    let zl ← o.getZiplist
    pure (zl.lookup field)
  else do
    let d ← o.getHashtable
    d.getField hash field

def size (o : HashObject) : Exec Nat :=
  if o.encoding = .ZIPLIST then do
    let zl ← o.getZiplist
    pure zl.length
  else do
    let d ← o.getHashtable
    pure d.size

def delField (hash : Bytes → Nat) (field : Bytes) (o : HashObject) : Exec (Bool × HashObject) :=
  if o.encoding = .ZIPLIST then do
    let zl ← o.getZiplist
    match unlink field zl with
    | some zl => pure (true, { o with storage := .ziplist zl })
    | none => pure (false, o)
  else do
    let d ← o.getHashtable
    let (b, d) ← d.delField hash field
    pure (b, { o with storage := .hashtable d })

def tryRehashForMs (hash : Bytes → Nat) (deadline : Nat) (o : HashObject) : Exec HashObject :=
  if o.encoding = .HASHTABLE then do
    let d ← o.getHashtable
    let d ← d.tryRehashForMs hash deadline
    pure { o with storage := .hashtable d }
  else pure o

def getAllFields (o : HashObject) : Exec (List HashEntry) :=
  if o.encoding = .ZIPLIST then o.getZiplist
  else do
    let d ← o.getHashtable
    d.getAll

variable {hash : Bytes → Nat}

/-! ## Safety -/

/-- What keeps every call on a hash object from faulting: the tag names the
variant that is there, and a table is sane. -/
inductive Safe : HashObject → Prop
  | ziplist (zl : Ziplist) : Safe ⟨.ZIPLIST, .ziplist zl⟩
  | hashtable {d : Dict} : Dict.Sane d → Safe ⟨.HASHTABLE, .hashtable d⟩

theorem new_safe : Safe new := .ziplist []

theorem insertAll_sane (hash : Bytes → Nat) (zl : Ziplist) {d : Dict} (hs : Dict.Sane d) :
    ∃ d', insertAll hash zl d = .ok d' ∧ Dict.Sane d' := by
  induction zl generalizing d with
  | nil => exact ⟨d, rfl, hs⟩
  | cons kv zl ih =>
    obtain ⟨d₁, hrun, hs₁⟩ := hs.setField hash kv.1 kv.2
    obtain ⟨d₂, hrest, hs₂⟩ := ih hs₁
    exact ⟨d₂, by simp [insertAll, hrun, hrest], hs₂⟩

theorem insertAll_append (zl : Ziplist) (kv : HashEntry) (d : Dict) :
    insertAll hash (zl ++ [kv]) d = insertAll hash zl d >>= Dict.setField hash kv.1 kv.2 := by
  induction zl generalizing d with
  | nil => simp [insertAll]
  | cons e zl ih =>
    simp only [List.cons_append, insertAll]
    cases Dict.setField hash e.1 e.2 d with
    | error f => rfl
    | ok d₁ => exact ih d₁

/-- `set_field(field, value)` turns this ziplist into a table. -/
def Promotes (zl : Ziplist) (field value : Bytes) : Prop :=
  Oversize (field, value) ∨ field ∉ keys zl ∧
    (zl.length + 1 ≥ ZIPLIST_MAX_ENTRIES ∨ ∃ kv ∈ zl, Oversize kv)

instance (zl : Ziplist) (field value : Bytes) : Decidable (Promotes zl field value) :=
  inferInstanceAs (Decidable (_ ∨ _))

/-- An entry behind a ziplist fits when it is small, and so are the others and
their number. -/
theorem shouldUseZiplist_push {zl : Ziplist} {kv : HashEntry} (hkv : ¬ Oversize kv) :
    shouldUseZiplist ⟨.ZIPLIST, .ziplist (zl ++ [kv])⟩ =
      .ok (decide (¬ (zl.length + 1 ≥ ZIPLIST_MAX_ENTRIES ∨ ∃ kv ∈ zl, Oversize kv))) := by
  simp only [shouldUseZiplist, ne_eq, not_true_eq_false, ↓reduceIte, getZiplist, Exec.pure_eq,
    Exec.ok_bind, List.length_append, List.length_singleton]
  split
  · next hfull => rw [decide_eq_false (not_not.mpr (Or.inl hfull))]
  · next hroom =>
    congr 1
    rw [decide_eq_decide, List.forall_mem_append, List.forall_mem_singleton, not_or]
    constructor
    · rintro ⟨hall, _⟩
      refine ⟨hroom, ?_⟩
      rintro ⟨e, he, hbig⟩
      exact hall e he hbig
    · rintro ⟨_, hnone⟩
      exact ⟨fun e he hbig => hnone ⟨e, he, hbig⟩, hkv⟩

/-- Everything `set_field` can do to a ziplist: become the table of all its
pairs and the new one, overwrite in place, or append. -/
theorem setField_ziplist (hash : Bytes → Nat) (zl : Ziplist) (field value : Bytes) :
    (Promotes zl field value ∧ setField hash field value ⟨.ZIPLIST, .ziplist zl⟩ =
        insertAll hash (zl ++ [(field, value)]) Dict.new >>=
          fun d => .ok ⟨.HASHTABLE, .hashtable d⟩) ∨
      (¬ Promotes zl field value ∧ ∃ zl', setField hash field value ⟨.ZIPLIST, .ziplist zl⟩ =
          .ok ⟨.ZIPLIST, .ziplist zl'⟩ ∧
        (assign field value zl = some zl' ∨
          assign field value zl = none ∧ zl' = zl ++ [(field, value)])) := by
  by_cases hbig : Oversize (field, value)
  · left
    refine ⟨Or.inl hbig, ?_⟩
    simp only [setField, hbig, and_self, ↓reduceIte, promoteToHashtable, ne_eq, not_true_eq_false,
      getZiplist, Exec.pure_eq, Exec.ok_bind, insertAll_append]
    cases insertAll hash zl Dict.new with
    | error f => rfl
    | ok d =>
      simp only [Exec.ok_bind, reduceCtorEq, ↓reduceIte, getHashtable, Exec.pure_eq]
  · cases hassign : assign field value zl with
    | some zl' =>
      right
      refine ⟨?_, zl', ?_, Or.inl rfl⟩
      · rintro (h | ⟨h, _⟩)
        · exact hbig h
        · rw [← assign_eq_none, hassign] at h
          cases h
      · simp [setField, hbig, getZiplist, hassign]
    | none =>
      have hnew := assign_eq_none.mp hassign
      simp only [setField, hbig, and_false, ↓reduceIte, Exec.pure_eq, Exec.ok_bind, getZiplist,
        hassign, shouldUseZiplist_push hbig]
      by_cases hfull : zl.length + 1 ≥ ZIPLIST_MAX_ENTRIES ∨ ∃ kv ∈ zl, Oversize kv
      · left
        refine ⟨Or.inr ⟨hnew, hfull⟩, ?_⟩
        simp only [hfull, not_true_eq_false, decide_false, Bool.false_eq_true, ↓reduceIte,
          promoteToHashtable, ne_eq, getZiplist, Exec.pure_eq, Exec.ok_bind]
      · right
        refine ⟨?_, zl ++ [(field, value)], ?_, Or.inr ⟨trivial, rfl⟩⟩
        · rintro (h | ⟨_, h⟩)
          · exact hbig h
          · exact hfull h
        · simp only [hfull, not_false_eq_true, decide_true, ↓reduceIte]

theorem delField_ziplist (hash : Bytes → Nat) (zl : Ziplist) (field : Bytes) :
    (unlink field zl = none ∧ delField hash field ⟨.ZIPLIST, .ziplist zl⟩ =
        .ok (false, ⟨.ZIPLIST, .ziplist zl⟩)) ∨
      ∃ zl', unlink field zl = some zl' ∧ delField hash field ⟨.ZIPLIST, .ziplist zl⟩ =
        .ok (true, ⟨.ZIPLIST, .ziplist zl'⟩) := by
  simp only [delField, ↓reduceIte, getZiplist, Exec.pure_eq, Exec.ok_bind]
  cases unlink field zl with
  | none => exact Or.inl ⟨rfl, rfl⟩
  | some zl' => exact Or.inr ⟨zl', rfl, rfl⟩

theorem Safe.setField {o : HashObject} (hs : Safe o) (hash : Bytes → Nat) (field value : Bytes) :
    ∃ o', HashObject.setField hash field value o = .ok o' ∧ Safe o' := by
  cases hs with
  | ziplist zl =>
    rcases setField_ziplist hash zl field value with ⟨_, hrun⟩ | ⟨_, zl', hrun, _⟩
    · obtain ⟨d, hall, hd⟩ :=
        insertAll_sane hash (zl ++ [(field, value)]) Dict.new_sane
      exact ⟨_, by rw [hrun, hall]; rfl, .hashtable hd⟩
    · exact ⟨_, hrun, .ziplist zl'⟩
  | @hashtable d hd =>
    obtain ⟨d', hrun, hd'⟩ := hd.setField hash field value
    exact ⟨_, by simp [HashObject.setField, getHashtable, hrun], .hashtable hd'⟩

/-- `P` holds of a fresh object, keeps calls from faulting, and `set_field` keeps
it. -/
structure Kept (hash : Bytes → Nat) (P : HashObject → Prop) : Prop where
  fresh : P new
  safe : ∀ o, P o → Safe o
  set : ∀ o field value, P o → ∃ o', setField hash field value o = .ok o' ∧ P o'

theorem safe_kept (hash : Bytes → Nat) : Kept hash Safe where
  fresh := new_safe
  safe := fun _ hs => hs
  set := fun _ field value hs => hs.setField hash field value

theorem Safe.getField {o : HashObject} (hs : Safe o) (hash : Bytes → Nat) (field : Bytes) :
    ∃ v, HashObject.getField hash field o = .ok v := by
  cases hs with
  | ziplist zl => exact ⟨zl.lookup field, rfl⟩
  | @hashtable d hd =>
    obtain ⟨v, hv⟩ := Dict.getField_returns hash field d
    exact ⟨v, by simp [HashObject.getField, getHashtable, hv]⟩

/-- What the object lists, in the order in which it lists it. -/
def fields (o : HashObject) : List HashEntry :=
  match o.storage with
  | .ziplist zl => zl
  | .hashtable d => d.entries

theorem Safe.getAllFields {o : HashObject} (hs : Safe o) : o.getAllFields = .ok o.fields := by
  cases hs with
  | ziplist zl => rfl
  | hashtable hd => simp [HashObject.getAllFields, getHashtable, Dict.getAll_ok hd, fields]

theorem Safe.size {o : HashObject} (hs : Safe o) : ∃ n, o.size = .ok n := by
  cases hs with
  | ziplist zl => exact ⟨zl.length, rfl⟩
  | @hashtable d hd => exact ⟨d.size, rfl⟩

/-! ## The stored map -/

/-- The condition on inserting the pairs one after the other into a Dict. -/
def InsertsUnmigrated (hash : Bytes → Nat) (d : Dict) (zl : Ziplist) : Prop :=
  Run.Guarded (Dict.step hash) (Dict.OpUnmigrated hash) d (zl.map fun kv => .set kv.1 kv.2)

/-- `set_field(field, value)` writes behind no migration: neither into the Dict
that is there nor, when it promotes the ziplist, into the new one. -/
def SetUnmigrated (hash : Bytes → Nat) (o : HashObject) (field value : Bytes) : Prop :=
  match o.storage with
  | .ziplist zl =>
      Promotes zl field value → InsertsUnmigrated hash Dict.new (zl ++ [(field, value)])
  | .hashtable d => Dict.Unmigrated hash d field

instance (d : Dict) (zl : Ziplist) : Decidable (InsertsUnmigrated hash d zl) :=
  inferInstanceAs (Decidable (Run.Guarded ..))

instance : (o : HashObject) → (field value : Bytes) → Decidable (SetUnmigrated hash o field value)
  | ⟨_, .ziplist zl⟩, field, value =>
      inferInstanceAs (Decidable (Promotes zl field value →
        InsertsUnmigrated hash Dict.new (zl ++ [(field, value)])))
  | ⟨_, .hashtable d⟩, field, _ => inferInstanceAs (Decidable (Dict.Unmigrated hash d field))

/-- The object is consistent and stores the map `m`. -/
inductive Stores (hash : Bytes → Nat) : HashObject → (Bytes → Option Bytes) → Prop
  | ziplist {zl : Ziplist} : (keys zl).Nodup →
      Stores hash ⟨.ZIPLIST, .ziplist zl⟩ (fun k => zl.lookup k)
  | hashtable {d : Dict} {m : Bytes → Option Bytes} : Dict.Stores hash d m →
      Stores hash ⟨.HASHTABLE, .hashtable d⟩ m

theorem new_stores : Stores hash new (fun _ => none) := .ziplist List.nodup_nil

theorem Stores.safe {o : HashObject} {m : Bytes → Option Bytes} (h : Stores hash o m) :
    Safe o := by
  cases h with
  | ziplist _ => exact .ziplist _
  | hashtable hd => exact .hashtable hd.wellFormed.toSane

theorem insertAll_stores {zl : Ziplist} {d : Dict} {m : Bytes → Option Bytes}
    (h : Dict.Stores hash d m) (hu : InsertsUnmigrated hash d zl) :
    ∃ d', insertAll hash zl d = .ok d' ∧ Dict.Stores hash d' (bindAll m zl) := by
  induction zl generalizing d m with
  | nil => exact ⟨d, rfl, h⟩
  | cons kv zl ih =>
    obtain ⟨hkv, hrest⟩ := hu
    obtain ⟨d₁, hrun, h₁⟩ := h.setField kv.2 hkv
    obtain ⟨d₂, hins, h₂⟩ := ih h₁ (hrest .done d₁ (by simp [Dict.step, hrun]))
    exact ⟨d₂, by simp [insertAll, hrun, hins], h₂⟩

/-- An unmigrated `set_field` is a map update in either encoding. -/
theorem Stores.setField {o : HashObject} {m : Bytes → Option Bytes} (h : Stores hash o m)
    {field value : Bytes} (hu : SetUnmigrated hash o field value) :
    ∃ o', HashObject.setField hash field value o = .ok o' ∧
      Stores hash o' (Function.update m field (some value)) := by
  cases h with
  | @ziplist zl hn =>
    rcases setField_ziplist hash zl field value with ⟨hp, hrun⟩ | ⟨_, zl', hrun, hzl⟩
    · obtain ⟨d, hins, hd⟩ := insertAll_stores Dict.new_stores (hu hp)
      rw [bindAll_append, bindAll_empty hn] at hd
      exact ⟨_, by rw [hrun, hins]; rfl, .hashtable hd⟩
    · refine ⟨_, hrun, ?_⟩
      rcases hzl with hassign | ⟨hassign, rfl⟩
      · obtain ⟨v₀, rest, hp, hp'⟩ := assign_perm hassign
        rw [← lookup_overwrite hn hp hp']
        exact .ziplist (assign_keys hassign ▸ hn)
      · have hp := List.perm_append_singleton (field, value) zl
        have hnew := assign_eq_none.mp hassign
        rw [← lookup_insert hn hnew hp]
        exact .ziplist ((keys_perm hp).nodup_iff.mpr (List.nodup_cons.mpr ⟨hnew, hn⟩))
  | @hashtable d _ hd =>
    obtain ⟨d', hrun, hd'⟩ := hd.setField value hu
    exact ⟨_, by simp [HashObject.setField, getHashtable, hrun], .hashtable hd'⟩

theorem Stores.delField {o : HashObject} {m : Bytes → Option Bytes} (h : Stores hash o m)
    (field : Bytes) :
    ∃ o', HashObject.delField hash field o = .ok ((m field).isSome, o') ∧
      Stores hash o' (Function.update m field none) := by
  cases h with
  | @ziplist zl hn =>
    rcases delField_ziplist hash zl field with ⟨hunlink, hrun⟩ | ⟨zl', hunlink, hrun⟩
    · have hnone := lookup_eq_none.mpr (unlink_eq_none.mp hunlink)
      refine ⟨_, by simpa [hnone] using hrun, ?_⟩
      rw [Function.update_eq_self_iff.mpr hnone.symm]
      exact .ziplist hn
    · obtain ⟨v₀, hp⟩ := unlink_perm hunlink
      refine ⟨_, by simpa [lookup_perm hn hp] using hrun, ?_⟩
      rw [← lookup_remove hn hp]
      exact .ziplist (List.nodup_cons.mp ((keys_perm hp).nodup_iff.mp hn)).2
  | @hashtable d _ hd =>
    obtain ⟨d', hrun, hd'⟩ := hd.delField field
    exact ⟨_, by simp [HashObject.delField, getHashtable, hrun], .hashtable hd'⟩

theorem Stores.tryRehashForMs {o : HashObject} {m : Bytes → Option Bytes} (h : Stores hash o m)
    (deadline : Nat) :
    ∃ o', HashObject.tryRehashForMs hash deadline o = .ok o' ∧ Stores hash o' m := by
  cases h with
  | ziplist hn => exact ⟨_, rfl, .ziplist hn⟩
  | @hashtable d _ hd =>
    obtain ⟨d', hrun, hd'⟩ := hd.tryRehashForMs deadline
    exact ⟨_, by simp [HashObject.tryRehashForMs, getHashtable, hrun], .hashtable hd'⟩

theorem Stores.getField {o : HashObject} {m : Bytes → Option Bytes} (h : Stores hash o m)
    (field : Bytes) : HashObject.getField hash field o = .ok (m field) := by
  cases h with
  | ziplist _ => rfl
  | @hashtable d _ hd =>
    have hl : d.entries.lookup field = m field := congrFun hd.lookup field
    simp [HashObject.getField, getHashtable, hd.wellFormed.getField, hl]

theorem Stores.lists {o : HashObject} {m : Bytes → Option Bytes} (h : Stores hash o m) :
    Lists m o.fields := by
  cases h with
  | ziplist hn => exact lists_lookup hn
  | hashtable hd => exact hd.lists

theorem Stores.size {o : HashObject} {m : Bytes → Option Bytes} (h : Stores hash o m) :
    o.size = .ok o.fields.length := by
  cases h with
  | ziplist _ => rfl
  | @hashtable d _ hd =>
    have := hd.wellFormed.size_eq
    simp [HashObject.size, getHashtable, this, fields]

end HashObject

end MiniRedis
