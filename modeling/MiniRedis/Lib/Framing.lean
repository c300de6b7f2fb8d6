import Mathlib.Data.List.DropRight

/-!
Cutting a stream into frames as its chunks arrive.  What has been read waits in a
buffer; when a chunk makes the buffer one that can be decided, the whole buffer
is taken.  And the part of a log that belongs to one session: the entries of its
own behind the entry that opened it.
-/

namespace Framing

variable {α β : Type}

/-! ## Frames -/

/-- The buffers taken, and what waits in the end. -/
def feed (decided : List β → Bool) : List β → List (List β) → List (List β) × List β
  | buffer, [] => ([], buffer)
  | buffer, chunk :: chunks =>
      if decided (buffer ++ chunk) then
        let (taken, rest) := feed decided [] chunks
        ((buffer ++ chunk) :: taken, rest)
      else feed decided (buffer ++ chunk) chunks

variable {decided : List β → Bool}

theorem feed_append (buffer : List β) (chunks chunks' : List (List β)) :
    feed decided buffer (chunks ++ chunks') =
      ((feed decided buffer chunks).1 ++
        (feed decided (feed decided buffer chunks).2 chunks').1,
        (feed decided (feed decided buffer chunks).2 chunks').2) := by
  induction chunks generalizing buffer with
  | nil => rfl
  | cons chunk chunks ih =>
    simp only [List.cons_append, feed]
    split
    · rw [ih]
      rfl
    · exact ih _

/-- A chunk that decides the buffer takes it. -/
theorem feed_taken {buffer : List β} {chunks : List (List β)} {taken : List (List β)}
    {rest chunk : List β} (h : feed decided buffer chunks = (taken, rest))
    (hd : decided (rest ++ chunk) = true) :
    feed decided buffer (chunks ++ [chunk]) = (taken ++ [rest ++ chunk], []) := by
  rw [feed_append, h]
  simp only [feed, hd, ↓reduceIte]

/-- A chunk that decides nothing waits behind the others. -/
theorem feed_waits {buffer : List β} {chunks : List (List β)} {taken : List (List β)}
    {rest chunk : List β} (h : feed decided buffer chunks = (taken, rest))
    (hd : decided (rest ++ chunk) = false) :
    feed decided buffer (chunks ++ [chunk]) = (taken, rest ++ chunk) := by
  rw [feed_append, h]
  simp only [feed, hd, Bool.false_eq_true, ↓reduceIte, List.append_nil]

/-- Nothing is lost and nothing is made up. -/
theorem feed_partition (buffer : List β) (chunks : List (List β)) :
    (feed decided buffer chunks).1.flatten ++ (feed decided buffer chunks).2 =
      buffer ++ chunks.flatten := by
  induction chunks generalizing buffer with
  | nil => simp [feed]
  | cons chunk chunks ih =>
    simp only [feed]
    split
    · have hrest := ih []
      rw [List.nil_append] at hrest
      rw [List.flatten_cons, List.append_assoc, hrest, List.flatten_cons, List.append_assoc]
    · rw [ih, List.flatten_cons, List.append_assoc]

/-- What waits is never decided. -/
theorem feed_waits_undecided (buffer : List β) (chunks : List (List β))
    (h : decided buffer = false) (hnil : decided [] = false) :
    decided (feed decided buffer chunks).2 = false := by
  induction chunks generalizing buffer with
  | nil => exact h
  | cons chunk chunks ih =>
    simp only [feed]
    split
    · exact ih [] hnil
    · next hd => exact ih _ (by simpa using hd)

/-- Only decided buffers are taken. -/
theorem feed_decided {buffer : List β} {chunks : List (List β)} {f : List β}
    (h : f ∈ (feed decided buffer chunks).1) : decided f = true := by
  induction chunks generalizing buffer with
  | nil => cases h
  | cons chunk chunks ih =>
    simp only [feed] at h
    split at h
    · next hd =>
      rcases List.mem_cons.mp h with rfl | h
      · exact hd
      · exact ih h
    · exact ih h

/-- Empty chunks leave an empty buffer alone. -/
theorem feed_quiet (hnil : decided [] = false) {chunks : List (List β)}
    (h : chunks.flatten = []) : feed decided [] chunks = ([], []) := by
  induction chunks with
  | nil => rfl
  | cons chunk chunks ih =>
    obtain ⟨rfl, hrest⟩ := List.append_eq_nil_iff.mp h
    simp only [feed, List.nil_append, hnil, Bool.false_eq_true, ↓reduceIte]
    exact ih hrest

/-- A frame is a decided string no proper prefix of which is. -/
structure Frame (decided : List β → Bool) (f : List β) : Prop where
  whole : decided f = true
  short : ∀ p, p <+: f → p ≠ f → decided p = false

/-- However the rest of a frame is cut, it is taken once. -/
theorem Frame.feed {f : List β} (hf : Frame decided f) (hnil : decided [] = false)
    {buffer : List β} {chunks : List (List β)} (h : buffer ++ chunks.flatten = f)
    (hne : buffer ≠ f) : feed decided buffer chunks = ([f], []) := by
  induction chunks generalizing buffer with
  | nil => exact absurd (by rw [← h, List.flatten_nil, List.append_nil]) hne
  | cons chunk chunks ih =>
    rw [List.flatten_cons, ← List.append_assoc] at h
    by_cases hlast : buffer ++ chunk = f
    · -- the chunks behind the last one of the frame are empty
      have hrest : chunks.flatten = [] := by
        rw [hlast] at h
        exact List.append_right_eq_self.mp h
      simp only [Framing.feed, hlast, hf.whole, ↓reduceIte, feed_quiet hnil hrest]
    · have hcut : decided (buffer ++ chunk) = false :=
        hf.short _ ⟨chunks.flatten, h⟩ hlast
      simp only [Framing.feed, hcut, Bool.false_eq_true, ↓reduceIte]
      exact ih h hlast

/-- A proper prefix of a frame waits, however it is cut. -/
theorem Frame.feed_part {f : List β} (hf : Frame decided f) {buffer : List β}
    {chunks : List (List β)} (h : buffer ++ chunks.flatten <+: f)
    (hne : buffer ++ chunks.flatten ≠ f) :
    Framing.feed decided buffer chunks = ([], buffer ++ chunks.flatten) := by
  induction chunks generalizing buffer with
  | nil => rw [Framing.feed, List.flatten_nil, List.append_nil]
  | cons chunk chunks ih =>
    rw [List.flatten_cons, ← List.append_assoc] at h hne ⊢
    have hpre : buffer ++ chunk <+: f := (List.prefix_append _ _).trans h
    have hcut : decided (buffer ++ chunk) = false := by
      refine hf.short _ hpre fun heq => hne ?_
      -- the buffer is the whole frame already
      have hlen := h.length_le
      rw [← heq, List.length_append] at hlen
      have hrest : chunks.flatten = [] := List.length_eq_zero_iff.mp (by omega)
      rw [hrest, List.append_nil, heq]
    simp only [Framing.feed, hcut, Bool.false_eq_true, ↓reduceIte]
    exact ih h hne

/-- Frames in chunks of their own are taken one by one. -/
theorem feed_frames (hnil : decided [] = false) {groups : List (List (List β))}
    (h : ∀ g ∈ groups, g.flatten ≠ [] ∧ Frame decided g.flatten) :
    feed decided [] groups.flatten = (groups.map List.flatten, []) := by
  induction groups with
  | nil => rfl
  | cons g groups ih =>
    obtain ⟨⟨hne, hf⟩, hgroups⟩ := List.forall_mem_cons.mp h
    have hfirst := hf.feed hnil (List.nil_append g.flatten) (Ne.symm hne)
    rw [List.flatten_cons, feed_append, hfirst, ih hgroups]
    rfl

/-! ## Sessions -/

/-- The own entries behind the last one that opens the session. -/
def session (opens own : α → Bool) (l : List α) : List α :=
  (l.rtakeWhile fun x => !opens x).filter own

variable {opens own : α → Bool} {l : List α} {x : α}

theorem session_opens (h : opens x = true) : session opens own (l ++ [x]) = [] := by
  simp [session, h]

theorem session_own (h : opens x = false) (ho : own x = true) :
    session opens own (l ++ [x]) = session opens own l ++ [x] := by
  simp [session, h, ho]

theorem session_other (h : opens x = false) (ho : own x = false) :
    session opens own (l ++ [x]) = session opens own l := by
  simp [session, h, ho]

/-- The entries of a session come from the log, in their order. -/
theorem session_sublist : (session opens own l).Sublist l :=
  List.filter_sublist.trans (List.rtakeWhile_suffix _ l).sublist

end Framing
