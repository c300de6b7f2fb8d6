import MiniRedis.PartialLoad
import MiniRedis.Process
import MiniRedis.TornSnapshot

/-!
What a process keeps over its ends.  Beside the store that its commands answer
from stands the store that the snapshot file would be loaded as.  A save that
comes to its end makes the second one the first, one that stops makes it empty,
and every end of the process makes the first one the second.
-/

namespace MiniRedis

/-- The store, and what is left of it when the process ends. -/
structure DurableStore where
  live : RefStore
  durable : RefStore

namespace RefStore

/-- Every length of the object is one that a snapshot can hold. -/
def WritableObject : RefObject → Prop
  | .string value => value.length < 2 ^ 14
  | .hash m => Set.ncard {field | m field ≠ none} < 2 ^ 14 ∧
      ∀ field value, m field = some value → field.length < 2 ^ 14 ∧ value.length < 2 ^ 14

def Writable (s : RefStore) : Prop :=
  ∀ key ref, s key = some ref → key.length < 2 ^ 14 ∧ WritableObject ref

end RefStore

namespace DurableStore

open CommandHandler

/-- What a save comes to: whether the file could be opened, whether the save
succeeds, and what the file then holds. -/
inductive Save (d : DurableStore) : Bool → Bool → RefStore → Prop
  | closed : Save d false false d.durable
  | whole : d.live.Writable → Save d true true d.live
  | torn : ¬ d.live.Writable → Save d true false RefStore.empty

def saveReply (saved : Bool) : Reply :=
  if saved then .ok else .error (bytes "ERR Failed to save RDB")

/-- What can happen to a store that is kept in memory and saved on demand. -/
inductive Step : DurableStore → Process.Event → Option Bytes → DurableStore → Prop
  | command {d args env reply} : request args ≠ .save → d.live.Answers (request args) reply →
      Step d (.command args env) (some reply.encode) ⟨d.live.next (request args), d.durable⟩
  | save {d args env saved durable} : request args = .save → Save d env.canOpen saved durable →
      Step d (.command args env) (some (saveReply saved).encode) ⟨d.live, durable⟩
  | signal {d env saved durable} : Save d env.canOpen saved durable →
      Step d (.signal env) none ⟨durable, durable⟩
  | kill {d} : Step d .kill none ⟨d.durable, d.durable⟩
  | cutLate {d order n} : d.live.Writable → Step d (.cut order n) none ⟨d.live, d.live⟩
  | cutEarly {d order n} : Step d (.cut order n) none ⟨RefStore.empty, RefStore.empty⟩

end DurableStore

namespace RdbEncoder

open Database RdbDecoder

variable {hash : Bytes → Nat}

/-! ## Saving -/

theorem admissible_iff {key : Bytes} {obj : RedisObject} {ref : RefObject}
    (h : Represents hash (some obj) (some ref)) :
    Admissible (key, obj) ↔ key.length < 2 ^ 14 ∧ RefStore.WritableObject ref := by
  cases h with
  | string value => exact Iff.rfl
  | @hash o m ho =>
    have hcard : Set.ncard {field | m field ≠ none} = o.fields.length := ho.lists.ncard
    refine and_congr_right fun _ => ?_
    simp only [RefStore.WritableObject, ho.size, Except.ok.injEq, forall_eq', hcard]
    refine and_congr_right fun _ => ?_
    constructor
    · intro hall field value hlook
      exact hall (field, value) ((ho.lists.2 field value).mpr hlook)
    · rintro hall ⟨field, value⟩ hmem
      exact hall field value ((ho.lists.2 field value).mp hmem)

/-- Every pair visited can be written exactly when the store can. -/
theorem visit_ok_iff {db : Database} {s : RefStore} (h : Stores hash db s) (order : Iteration) :
    (∀ entry ∈ order.visit db, (writeKeyValuePair entry).fault = none) ↔ s.Writable := by
  have hlists := db.lists_visit order
  have hobj := h.safe.visited order
  constructor
  · intro hok key ref href
    have hrep := h key
    rw [href] at hrep
    generalize hlook : db.lookupKey key = obj at hrep
    cases obj with
    | none => cases hrep
    | some obj =>
      have hmem := (hlists.2 key obj).mpr hlook
      exact (admissible_iff hrep).mp ((writeKeyValuePair_ok_iff (hobj _ hmem)).mp (hok _ hmem))
  · rintro hs ⟨key, obj⟩ hmem
    have hrep := h key
    have hlook : db.lookupKey key = some obj := (hlists.2 key obj).mp hmem
    rw [hlook] at hrep
    generalize href : s key = ref at hrep
    cases ref with
    | none => cases hrep
    | some ref =>
      have hadmissible := (admissible_iff hrep).mpr (hs key ref href)
      exact (writeKeyValuePair_ok_iff (hobj _ hmem)).mpr hadmissible

/-- The file stands for a store when it is loaded as one. -/
def Keeps (hash : Bytes → Nat) (dump : Option Bytes) (s : RefStore) : Prop :=
  ∃ db, loadFromFile hash dump = .ok db ∧ Stores hash db s

/-- A save does to the file what it does to a durable store. -/
theorem saveToFile_keeps {db : Database} {d : DurableStore} (h : Stores hash db d.live)
    {dump : Option Bytes} (hdump : Keeps hash dump d.durable) (env : Surroundings)
    (hread : env.canOpen = true → ReadableStore hash db) :
    ∃ saved dump' durable, saveToFile env.order env.canOpen db dump = .ok (saved, dump') ∧
      d.Save env.canOpen saved durable ∧ Keeps hash dump' durable := by
  rcases saveToFile_cases h.safe env.order env.canOpen dump with ⟨hclosed, hrun⟩ |
    ⟨hopen, hok, hrun⟩ | ⟨hopen, before, entry, after, hvisit, hbefore, hentry, hrun⟩
  · refine ⟨false, dump, d.durable, hrun, ?_, hdump⟩
    rw [hclosed]
    exact .closed
  · refine ⟨true, _, d.live, hrun, hopen ▸ .whole ((visit_ok_iff h env.order).mp hok), ?_⟩
    rw [hopen] at hrun
    exact loadFromFile_written h hrun (hread hopen)
  · have hstop : (writeKeyValuePair entry).fault ≠ none := by
      rw [hentry]
      exact Option.some_ne_none _
    have htorn : ¬ d.live.Writable := fun hs =>
      hstop ((visit_ok_iff h env.order).mpr hs entry (by simp [hvisit]))
    exact ⟨false, _, RefStore.empty, hrun, hopen ▸ .torn htorn, ∅,
      load_failed (decode_torn h (hread hopen) hvisit hbefore hstop), empty_stores⟩

/-- A file that decodes begins with what the decoder takes of it. -/
theorem decodeAll_split {f : Bytes} {data : Database} (h : decodeAll hash f = .ok data) :
    ∃ c rest, f = c ++ rest ∧ decodeRest hash (c ++ rest) = .ok (data, rest) := by
  obtain ⟨rest, hrest⟩ := decodeAll_ok h
  obtain ⟨p, hp⟩ := decodeRest_ends hrest
  have hsplit : f = p ++ [RDB_OPCODE_EOF] ++ rest := by rw [hp]; simp
  exact ⟨p ++ [RDB_OPCODE_EOF], rest, hsplit, hsplit ▸ hrest⟩

/-- A part of a file that does not decode does not decode. -/
theorem decode_part {f g : Bytes} (h : ∀ r, decodeAll hash f ≠ .ok r) (hg : g <+: f)
    (r : Database) : decodeAll hash g ≠ .ok r := by
  intro hdecode
  obtain ⟨t, rfl⟩ := hg
  obtain ⟨c, rest, rfl, hrest⟩ := decodeAll_split hdecode
  refine h r ?_
  rw [List.append_assoc, decodeAll_eq, (decodeRest_decides hrest).1]
  rfl

/-- What an interrupted save leaves is loaded as the store it was to save, or as
the empty one. -/
theorem part_keeps {db : Database} {s : RefStore} (h : Stores hash db s)
    (hread : ReadableStore hash db) (order : Iteration) {g : Bytes}
    (hg : g <+: (writeAll (order.visit db)).written) :
    s.Writable ∧ Keeps hash (some g) s ∨ Keeps hash (some g) RefStore.empty := by
  cases hpairs : (Emit.forEach writeKeyValuePair (order.visit db)).fault with
  | none =>
    have hok := Emit.forEach_ok_iff.mp hpairs
    obtain ⟨db', hdecode, hst⟩ := decodeAll_written h order hok hread
    rw [writeAll_ok hpairs, Emit.forEach_written hok] at hg
    obtain ⟨c, rest, hfile, hrest⟩ := decodeAll_split hdecode
    rcases part_loads hrest (hfile ▸ hg) with ⟨t, rfl⟩ | hempty
    · exact Or.inl ⟨(visit_ok_iff h order).mp hok, db', load_ok ((decodeRest_decides hrest).1 t),
        hst⟩
    · exact Or.inr ⟨∅, hempty, empty_stores⟩
  | some e =>
    obtain ⟨before, entry, after, hvisit, hbefore, hentry, hwritten⟩ := Emit.forEach_stops hpairs
    have hstop : (writeKeyValuePair entry).fault ≠ none := by
      rw [hentry]
      exact Option.some_ne_none _
    rw [writeAll_stops hpairs, hwritten, ← List.append_assoc] at hg
    exact Or.inr ⟨∅, load_failed (decode_part (decode_torn h hread hvisit hbefore hstop) hg),
      empty_stores⟩

end RdbEncoder

namespace CommandHandler

open Database RdbEncoder

variable {hash : Bytes → Nat}

/-- A request that saves nothing leaves the file. -/
theorem perform_dump {env : Surroundings} {r : Request} {w w' : World} {reply : Reply}
    (hr : r ≠ .save) (h : perform hash env r w = .ok (reply, w')) : w'.dump = w.dump := by
  cases r with
  | save => exact absurd rfl hr
  | hset key field value =>
    simp only [perform] at h
    split at h
    · cases h
      rfl
    · cases h
      rfl
    · cases h
  | hget key field =>
    obtain ⟨_, _, h⟩ := Exec.bind_eq_ok.mp h
    cases h
    rfl
  | ping | set | get | del | exist | keys | refused =>
    cases h
    rfl

end CommandHandler

namespace Process

open CommandHandler Database RdbEncoder

variable {hash : Bytes → Nat}

/-- The condition on one event: an `HSET` writes behind no migration, and what is
saved comes back from a snapshot. -/
def Intact (hash : Bytes → Nat) (w : World) : Event → Prop
  | .command args env => Unmigrated hash w.db (request args) ∧
      (request args = .save → env.canOpen = true → ReadableStore hash w.db)
  | .signal env => env.canOpen = true → ReadableStore hash w.db
  | .kill => True
  | .cut .. => ReadableStore hash w.db

instance (w : World) : (event : Event) → Decidable (Intact hash w event)
  | .command .. => inferInstanceAs (Decidable (_ ∧ (_ → _ → _)))
  | .signal _ => inferInstanceAs (Decidable (_ → _))
  | .kill => .isTrue trivial
  | .cut .. => inferInstanceAs (Decidable (ReadableStore ..))

/-- The process and its file stand for the store and what is left of it. -/
structure Stands (hash : Bytes → Nat) (w : World) (d : DurableStore) : Prop where
  live : Stores hash w.db d.live
  durable : Keeps hash w.dump d.durable

/-- A process started on a file has what the file keeps. -/
theorem start_stands {dump : Option Bytes} {s : RefStore} (h : Keeps hash dump s) :
    ∃ w, start hash dump = .ok w ∧ Stands hash w ⟨s, s⟩ := by
  obtain ⟨db, hload, hst⟩ := h
  refine ⟨⟨db, dump⟩, ?_, hst, db, hload, hst⟩
  simp only [start, construct, ↓reduceIte, hload]
  rfl

theorem step_durable (w : World) (d : DurableStore) (event : Event) (h : Stands hash w d)
    (hi : Intact hash w event) :
    ∃ resp w' d', step hash event w = .ok (resp, w') ∧ d.Step event resp d' ∧
      Stands hash w' d' := by
  cases event with
  | command args env =>
    obtain ⟨hu, hread⟩ := hi
    by_cases hr : request args = .save
    · obtain ⟨saved, dump, durable, hrun, hsave, hkeeps⟩ :=
        saveToFile_keeps h.live h.durable env (hread hr)
      refine ⟨_, ⟨w.db, dump⟩, ⟨d.live, durable⟩, ?_, .save hr hsave, h.live, hkeeps⟩
      simp only [step, execute_eq, encodeReply, hr, perform, hrun]
      rfl
    · obtain ⟨reply, w', hrun, hans, hst⟩ := perform_refines env h.live hu
      refine ⟨_, w', _, ?_, .command hr hans, hst, perform_dump hr hrun ▸ h.durable⟩
      simp only [step, execute_eq, encodeReply, hrun]
      rfl
  | signal env =>
    obtain ⟨saved, dump, durable, hrun, hsave, hkeeps⟩ := saveToFile_keeps h.live h.durable env hi
    obtain ⟨w', hstart, hst⟩ := start_stands hkeeps
    refine ⟨none, w', _, ?_, .signal hsave, hst⟩
    simp only [step, signalHandler, saveRdb, hrun, Exec.ok_bind, Exec.pure_eq, hstart]
  | kill =>
    obtain ⟨w', hstart, hst⟩ := start_stands h.durable
    refine ⟨none, w', _, ?_, .kill, hst⟩
    simp only [step, hstart]
    rfl
  | cut order n =>
    have hpart := List.take_prefix n (writeAll (order.visit w.db)).written
    rcases part_keeps h.live hi order hpart with ⟨hs, hkeeps⟩ | hkeeps
    · obtain ⟨w', hstart, hst⟩ := start_stands hkeeps
      refine ⟨none, w', _, ?_, .cutLate hs, hst⟩
      simp only [step, hstart]
      rfl
    · obtain ⟨w', hstart, hst⟩ := start_stands hkeeps
      refine ⟨none, w', _, ?_, .cutEarly, hst⟩
      simp only [step, hstart]
      rfl

/-- **Durability.**  On a file that keeps a store, and whatever the order of
commands, signals and ends of the process, the replies and what is there after
each start are those of a store that is kept in memory, saved on demand and read
when the process starts.  This is so as long as each `HSET` writes behind no
migration and what is saved can be read back. -/
theorem process_is_durable_store (hash : Bytes → Nat) (dump : Option Bytes) (s : RefStore)
    (events : List Event) (w : World) (hs : Keeps hash dump s) (hw : start hash dump = .ok w)
    (hi : Run.Guarded (step hash) (Intact hash) w events) :
    ∃ resps w' d, Run.run (step hash) events w = .ok (resps, w') ∧
      Run.Steps DurableStore.Step ⟨s, s⟩ events resps d ∧ Stands hash w' d := by
  obtain ⟨w₀, hstart, hst⟩ := start_stands hs
  rw [hw] at hstart
  cases hstart
  exact Run.refinement step_durable events w ⟨s, s⟩ hst hi

/-- A string saved on demand, a hash saved by a signal, a deletion that is lost,
and a save cut off before its end. -/
def endings : List Event :=
  [.command [bytes "SET", [1], [7]] ⟨.stored, true⟩, .command [bytes "SAVE"] ⟨.stored, true⟩,
    .command [bytes "HSET", [2], [3], [4]] ⟨.stored, true⟩, .signal ⟨.stored, true⟩,
    .command [bytes "DEL", [1]] ⟨.stored, true⟩, .command [bytes "SAVE"] ⟨.stored, false⟩, .kill,
    .command [bytes "GET", [1]] ⟨.stored, true⟩, .cut .stored 20, .signal ⟨.stored, false⟩]

theorem process_is_durable_store_endings :
    ∃ resps w' d, Run.run (step Dict.firstByte) endings World.empty = .ok (resps, w') ∧
      Run.Steps DurableStore.Step ⟨RefStore.empty, RefStore.empty⟩ endings resps d ∧
      Stands Dict.firstByte w' d :=
  process_is_durable_store Dict.firstByte none RefStore.empty endings World.empty
    ⟨∅, rfl, empty_stores⟩ rfl (by decide +kernel)

end Process

end MiniRedis
