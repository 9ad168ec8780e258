/-
  Otterbrix.Wal.ReaderSync

  Where the page reader keeps step with the writer, and where it does not.

  The reader resynchronises from two flag bits that say that a page carries a
  piece of a spanning record and that one ends on it, but not whether another
  one starts there.  Against a laid-out segment it is in one of six states
  (`Sync`).  `Sync.next` says which page shapes it survives:

    * from such a page it returns the complete records and moves to the next
      state (`InSync.step`);
    * any other page costs it bytes, at once or at the page where the open
      record ends (`InSync.stuck`), and since no byte is ever decoded twice the
      lost record cannot come back.
-/
import Otterbrix.Wal.Layout

namespace Otterbrix
namespace Wal

variable {Chunk : Type}

/-! ## The states of the reader -/

/-- The reader against the writer's pages. -/
inductive Sync where
  /-- nothing buffered, no record open -/
  | idle
  /-- nothing buffered and not in a span, but a record with an empty head is open -/
  | idleSpan
  /-- in a span with an empty buffer, but no record is open -/
  | stale
  /-- the buffer holds the head of the open record, size field included -/
  | span
  /-- the buffer holds fewer than four bytes of the open record -/
  | shortSpan
  /-- the buffer holds a complete record, the open record has an empty head -/
  | held
  deriving DecidableEq, Repr

/-- The state in which a head of `h` bytes is buffered. -/
def Sync.ofHead (h : Nat) : Sync := if 4 ≤ h then .span else .shortSpan

/-- The page shapes the reader survives in a state, and the state after them. -/
def Sync.next : Sync → PageShape → Option Sync
  | .idle, ⟨.fresh, _, none⟩ => some .idle
  | .idle, ⟨.fresh, _, some h⟩ => some (ofHead h)
  | .idleSpan, ⟨.middle, _, _⟩ => some .span
  | .idleSpan, ⟨.tail, _, none⟩ => some .stale
  | .idleSpan, ⟨.tail, _, some h⟩ => some (ofHead h)
  | .stale, ⟨.fresh, _, none⟩ => some .idle
  | .stale, ⟨.fresh, 0, some h⟩ => some (ofHead h)
  | .stale, ⟨.fresh, 1, some 0⟩ => some .held
  | .span, ⟨.middle, _, _⟩ => some .span
  | .span, ⟨.tail, _, none⟩ => some .idle
  | .span, ⟨.tail, _, some 0⟩ => some .idleSpan
  | .shortSpan, ⟨.middle, _, _⟩ => some .span
  | .shortSpan, ⟨.tail, 0, none⟩ => some .idle
  | .shortSpan, ⟨.tail, 0, some 0⟩ => some .idleSpan
  | .held, ⟨.tail, _, none⟩ => some .idle
  | .held, ⟨.tail, _, some 0⟩ => some .idleSpan
  | _, _ => none

/-- The reader survives all of the pages. -/
def Sync.follows : Sync → List PageShape → Bool
  | _, [] => true
  | s, p :: ps =>
      match s.next p with
      | none => false
      | some s' => s'.follows ps

/-- A segment whose pages have these shapes is read back in full. -/
def readable (shapes : List PageShape) : Bool := Sync.idle.follows shapes

/-! ## Records in a page -/

/-- What the reader keeps of a record. -/
def kept (c : Codec Chunk) (after : UInt64) (f : Frame) : List (Record Chunk) :=
  keepRecord after (decodeRecord c f.bytes)

theorem Frame.size_pos (f : Frame) : (Bytes.readLe32 f.bytes).toNat ≠ 0 := by
  have hlong := f.long
  have hsized := f.sized
  omega

/-- Four bytes of a record announce its length. -/
theorem recordBytes_of_readLe32 (f : Frame) {data : Bytes}
    (h : Bytes.readLe32 data = Bytes.readLe32 f.bytes) : recordBytes data = f.bytes.length := by
  rw [recordBytes, h, f.sized]
  exact Nat.mod_eq_of_lt f.small

theorem recordBytes_append (f : Frame) (rest : Bytes) :
    recordBytes (f.bytes ++ rest) = f.bytes.length :=
  recordBytes_of_readLe32 f (Bytes.readLe32_append rest (by have := f.long; omega))

theorem recordBytes_take (f : Frame) {n : Nat} (hn : 4 ≤ n) :
    recordBytes (f.bytes.take n) = f.bytes.length :=
  recordBytes_of_readLe32 f (Bytes.readLe32_take hn)

/-- The parsing loop stops at the head of a record that does not end here. -/
theorem parseRecords_head (c : Codec Chunk) (after : UInt64) {f : Frame} {n : Nat}
    (h : n < f.bytes.length) :
    parseRecords c after (f.bytes.take n) = some ([], f.bytes.take n) := by
  have hlen : (f.bytes.take n).length = n := by
    rw [List.length_take]
    omega
  rw [parseRecords]
  by_cases hshort : n < 4
  · rw [if_pos (by omega)]
  · rw [if_neg (by omega), Bytes.readLe32_take (by omega), if_neg f.size_pos,
      recordBytes_take f (by omega), if_pos (by omega)]

theorem parseRecords_carry (c : Codec Chunk) (after : UInt64) {carry : Carry}
    (h : carry.Proper) :
    parseRecords c after (carry.head.getD []) = some ([], carry.head.getD []) := by
  rcases carry with _ | ⟨f, n⟩
  · rw [parseRecords]
    rfl
  · exact parseRecords_head c after h

/-- A complete record at the front is decoded and skipped. -/
theorem parseRecords_frame (c : Codec Chunk) (after : UInt64) (f : Frame) {rest left : Bytes}
    {records : List (Record Chunk)} (h : parseRecords c after rest = some (records, left)) :
    parseRecords c after (f.bytes ++ rest) = some (kept c after f ++ records, left) := by
  have hlong := f.long
  have hlen : (f.bytes ++ rest).length = f.bytes.length + rest.length := List.length_append
  have hsize : (Bytes.readLe32 (f.bytes ++ rest)).toNat ≠ 0 := by
    rw [Bytes.readLe32_append rest (by omega)]
    exact f.size_pos
  have hdrop : (f.bytes ++ rest).drop f.bytes.length = rest := List.drop_left' rfl
  have htake : (f.bytes ++ rest).take f.bytes.length = f.bytes := List.take_left' rfl
  rw [parseRecords, if_neg (by omega), if_neg hsize, recordBytes_append, if_neg (by omega),
    dif_neg (by omega), hdrop, htake, h]
  rfl

theorem parseRecords_frames (c : Codec Chunk) (after : UInt64) (ws : List Frame)
    {rest left : Bytes} (h : parseRecords c after rest = some ([], left)) :
    parseRecords c after (frameBytes ws ++ rest) = some (ws.flatMap (kept c after), left) := by
  induction ws with
  | nil => simpa using h
  | cons f ws ih =>
      rw [frameBytes_cons, List.append_assoc, parseRecords_frame c after f ih]
      rfl

/-! ## The three branches of the reader on laid pages -/

/-- A page read from its start. -/
theorem startPage_frames (c : Codec Chunk) (after : UInt64) (isCont : Bool) (ws : List Frame)
    {next : Carry} (hn : next.Proper) :
    startPage c after isCont (frameBytes ws ++ next.head.getD []) =
      some (ws.flatMap (kept c after),
        if isCont then { spanBuffer := next.head.getD [], inSpan := true } else {}) := by
  rw [startPage, parseRecords_frames c after ws (parseRecords_carry c after hn)]

/-- The last page of a record whose size field is buffered. -/
theorem finishSpan_long (c : Codec Chunk) (after : UInt64) {g : Frame} {buffer t : Bytes}
    (ws : List Frame) {next : Carry} (hn : next.Proper) (hg : buffer ++ t = g.bytes)
    (hlong : 4 ≤ buffer.length) :
    finishSpan c after ⟨buffer, true⟩ (t ++ (frameBytes ws ++ next.head.getD [])) =
      some (kept c after g ++ ws.flatMap (kept c after), {}) := by
  have hlen : buffer.length + t.length = g.bytes.length := by
    rw [← hg, List.length_append]
  have hbytes : recordBytes buffer = g.bytes.length :=
    recordBytes_of_readLe32 g (by rw [← hg, Bytes.readLe32_append t hlong])
  -- exactly the missing bytes of the record are taken
  have htake : toTake buffer (t ++ (frameBytes ws ++ next.head.getD [])) = t.length := by
    unfold toTake
    dsimp only
    rw [if_pos hlong, hbytes, List.length_append]
    split_ifs <;> omega
  have hleft : (t ++ (frameBytes ws ++ next.head.getD [])).take t.length = t :=
    List.take_left' rfl
  have hright : (t ++ (frameBytes ws ++ next.head.getD [])).drop t.length =
      frameBytes ws ++ next.head.getD [] := List.drop_left' rfl
  have hself : recordBytes g.bytes = g.bytes.length := recordBytes_of_readLe32 g rfl
  have hglong := g.long
  unfold finishSpan
  dsimp only
  rw [htake, hleft, hright, hg, hself, if_pos (by omega), if_pos (by omega), List.take_length,
    parseRecords_frames c after ws (parseRecords_carry c after hn)]
  rfl

/-- The last page of a record whose size field is not complete in the buffer:
    the whole page is taken, and what follows the record on it is dropped. -/
theorem finishSpan_short (c : Codec Chunk) (after : UInt64) {f : Frame} {buffer data rest : Bytes}
    (hf : buffer ++ data = f.bytes ++ rest) (hshort : buffer.length < 4) :
    finishSpan c after ⟨buffer, true⟩ data = some (kept c after f, {}) := by
  have htake : toTake buffer data = data.length := by
    unfold toTake
    rw [if_neg (by omega)]
    exact Nat.min_self _
  have hlong := f.long
  have hlen : (f.bytes ++ rest).length = f.bytes.length + rest.length := List.length_append
  have hempty : parseRecords c after ([] : Bytes) = some ([], []) := by
    rw [parseRecords]
    rfl
  unfold finishSpan
  dsimp only
  rw [htake, List.take_length, List.drop_length, hf, recordBytes_append, if_pos (by omega),
    if_pos (by omega), List.take_left' rfl, hempty]
  dsimp only
  rw [List.append_nil]
  rfl

/-! ## Keeping step -/

/-- The reader's state, the records it still owes, and the open record. -/
inductive InSync : Sync → List Frame → SpanState → Carry → Prop where
  | idle : InSync .idle [] {} none
  | idleSpan {f : Frame} : InSync .idleSpan [] {} (some (f, 0))
  | stale : InSync .stale [] ⟨[], true⟩ none
  | span {f : Frame} {n : Nat} (hlong : 4 ≤ n) (hmore : n < f.bytes.length) :
      InSync .span [] ⟨f.bytes.take n, true⟩ (some (f, n))
  | shortSpan {f : Frame} {n : Nat} (hshort : n < 4) :
      InSync .shortSpan [] ⟨f.bytes.take n, true⟩ (some (f, n))
  | held {f g : Frame} : InSync .held [g] ⟨g.bytes, true⟩ (some (f, 0))

variable {c : Codec Chunk} {after : UInt64} {s s' : Sync} {owed fs ws : List Frame} {st : SpanState}
  {f : Frame} {n : Nat} {carry next : Carry} {p : PageContent} {ps : List PageContent}
  {v : PageView} {vs : List PageView}

/-- With no record open the reader owes nothing. -/
theorem InSync.owed_nil (h : InSync s owed st none) : owed = [] := by
  cases h <;> rfl

/-- A buffered head puts the reader in step with the record it starts. -/
theorem inSync_ofHead (hmore : n < f.bytes.length) :
    InSync (.ofHead n) [] ⟨f.bytes.take n, true⟩ (some (f, n)) := by
  unfold Sync.ofHead
  split_ifs with hlong
  · exact InSync.span hlong hmore
  · exact InSync.shortSpan (by omega)

/-- The head's length in the shape of a page. -/
theorem length_head (hmore : n < f.bytes.length) :
    (f.bytes.take n).length = n := by
  rw [List.length_take]
  omega

/-- A middle page goes into the buffer. -/
theorem InSync.middle (h : InSync s owed st (some (f, n)))
    (hmore : n + pageDataSize < f.bytes.length) (hs : s.next ⟨.middle, 0, none⟩ = some s') :
    ∃ st', readPage c after st true false ((f.bytes.drop n).take pageDataSize) = some ([], st') ∧
      owed = [] ∧ InSync s' [] st' (some (f, n + pageDataSize)) := by
  have hfour : 4 ≤ pageDataSize := by decide
  have hjoin : f.bytes.take n ++ (f.bytes.drop n).take pageDataSize =
      f.bytes.take (n + pageDataSize) := (List.take_add).symm
  cases h with
  | idleSpan =>
      -- not in a span: the piece is parsed, found incomplete and buffered
      obtain rfl : Sync.span = s' := by simpa [Sync.next] using hs
      have hstart : readPage c after {} true false ((f.bytes.drop 0).take pageDataSize) =
          some ([], ⟨f.bytes.take pageDataSize, true⟩) := by
        rw [List.drop_zero, readPage, startPage, parseRecords_head c after (by omega)]
        rfl
      rw [Nat.zero_add] at hmore ⊢
      exact ⟨_, hstart, rfl, InSync.span hfour hmore⟩
  | span hlong _ =>
      obtain rfl : Sync.span = s' := by simpa [Sync.next] using hs
      refine ⟨⟨f.bytes.take (n + pageDataSize), true⟩, ?_, rfl, InSync.span (by omega) hmore⟩
      rw [readPage, ← hjoin]
      rfl
  | shortSpan hshort =>
      obtain rfl : Sync.span = s' := by simpa [Sync.next] using hs
      refine ⟨⟨f.bytes.take (n + pageDataSize), true⟩, ?_, rfl, InSync.span (by omega) hmore⟩
      rw [readPage, ← hjoin]
      rfl
  | held => simp [Sync.next] at hs

/-- A page with no spanning record before it. -/
theorem InSync.fresh (h : InSync s owed st none) (hn : next.Proper)
    (hs : s.next ⟨.fresh, ws.length, next.head.map List.length⟩ = some s') :
    ∃ now st' owed', readPage c after st next.head.isSome false
        (frameBytes ws ++ next.head.getD []) = some (now.flatMap (kept c after), st') ∧
      InSync s' owed' st' next ∧ ws ++ next.frames = now ++ owed' ++ next.frames := by
  cases h with
  | idle =>
      refine ⟨ws, if next.head.isSome then ⟨next.head.getD [], true⟩ else {}, [], ?_, ?_, by simp⟩
      · rw [readPage, if_neg (by simp), if_neg (by simp), startPage_frames c after _ ws hn]
      · rcases next with _ | ⟨f, n⟩
        · obtain rfl : Sync.idle = s' := by simpa [Sync.next, Carry.head] using hs
          exact InSync.idle
        · obtain rfl : Sync.ofHead n = s' := by
            simpa [Sync.next, Carry.head, length_head hn] using hs
          exact inSync_ofHead hn
  | stale =>
      rcases next with _ | ⟨f, n⟩
      · -- a page without flags ends the stale span
        obtain rfl : Sync.idle = s' := by simpa [Sync.next, Carry.head] using hs
        refine ⟨ws, {}, [], ?_, InSync.idle, by simp [Carry.frames]⟩
        have hpage := @startPage_frames _ c after false ws none trivial
        simpa [readPage, Carry.head] using hpage
      · have hhead : (f.bytes.take n).length = n := length_head hn
        rcases ws with _ | ⟨g, _ | ⟨g', ws⟩⟩
        · obtain rfl : Sync.ofHead n = s' := by simpa [Sync.next, Carry.head, hhead] using hs
          exact ⟨[], _, [], rfl, inSync_ofHead hn, rfl⟩
        · rcases n with _ | n
          · obtain rfl : Sync.held = s' := by simpa [Sync.next, Carry.head] using hs
            refine ⟨[], ⟨g.bytes, true⟩, [g], ?_, InSync.held, rfl⟩
            simp [readPage, Carry.head]
          · simp [Sync.next, Carry.head, hhead] at hs
        · simp [Sync.next, Carry.head] at hs

/-- A page on which a spanning record ends. -/
theorem InSync.tail (h : InSync s owed st (some (f, n))) (hn : next.Proper)
    (hs : s.next ⟨.tail, ws.length, next.head.map List.length⟩ = some s') :
    ∃ st', readPage c after st true true
        (f.bytes.drop n ++ (frameBytes ws ++ next.head.getD [])) =
          some ((owed ++ f :: ws).flatMap (kept c after), st') ∧
      InSync s' [] st' next := by
  -- after a span the reader keeps nothing, so the next record must have an empty head
  have hclosed : ∀ {s : Sync}, (∀ h, s.next ⟨.tail, ws.length, some (h + 1)⟩ = none) →
      s.next ⟨.tail, ws.length, none⟩ = some .idle ∨ s.next ⟨.tail, ws.length, none⟩ = none →
      s.next ⟨.tail, ws.length, some 0⟩ = some .idleSpan ∨
        s.next ⟨.tail, ws.length, some 0⟩ = none →
      s.next ⟨.tail, ws.length, next.head.map List.length⟩ = some s' → InSync s' [] {} next := by
    intro s hpos hflush hzero hs
    rcases next with _ | ⟨g, m⟩
    · rcases hflush with hidle | hnone
      · obtain rfl : Sync.idle = s' := by simpa [Carry.head, hidle] using hs
        exact InSync.idle
      · simp [Carry.head, hnone] at hs
    · rcases m with _ | m
      · rcases hzero with hidle | hnone
        · obtain rfl : Sync.idleSpan = s' := by simpa [Carry.head, hidle] using hs
          exact InSync.idleSpan
        · simp [Carry.head, hnone] at hs
      · have hhead : (g.bytes.take (m + 1)).length = m + 1 := length_head hn
        simp [Carry.head, hhead, hpos] at hs
  cases h with
  | idleSpan =>
      -- the record lies on this page from its first byte on
      have hpage := startPage_frames c after true (f :: ws) hn
      rw [frameBytes_cons, List.append_assoc] at hpage
      refine ⟨⟨next.head.getD [], true⟩, ?_, ?_⟩
      · rw [List.drop_zero, readPage, if_neg (by simp), if_neg (by simp), hpage]
        rfl
      · rcases next with _ | ⟨g, m⟩
        · obtain rfl : Sync.stale = s' := by simpa [Sync.next, Carry.head] using hs
          exact InSync.stale
        · obtain rfl : Sync.ofHead m = s' := by
            simpa [Sync.next, Carry.head, length_head hn] using hs
          exact inSync_ofHead hn
  | span hlong hmore =>
      refine ⟨{}, ?_, hclosed (fun _ => rfl) (Or.inl rfl) (Or.inl rfl) hs⟩
      have hbuffer : 4 ≤ (f.bytes.take n).length := by rw [length_head hmore]; exact hlong
      exact finishSpan_long c after ws hn (List.take_append_drop n f.bytes) hbuffer
  | shortSpan hshort =>
      -- everything on the page is taken, so there must be nothing behind the record
      have hlong := f.long
      rcases ws with _ | ⟨g, ws⟩
      · refine ⟨{}, ?_, hclosed (fun _ => rfl) (Or.inl rfl) (Or.inl rfl) hs⟩
        have hnil : f.bytes.take n ++ (f.bytes.drop n ++ (frameBytes [] ++ next.head.getD [])) =
            f.bytes ++ next.head.getD [] := by
          rw [← List.append_assoc, List.take_append_drop]
          rfl
        have hpage := finishSpan_short c after hnil (by rw [length_head (by omega)]; exact hshort)
        simpa [readPage] using hpage
      · rcases next with _ | ⟨g', _ | m⟩ <;> simp [Sync.next, Carry.head] at hs
  | @held _ g =>
      refine ⟨{}, ?_, hclosed (fun _ => rfl) (Or.inl rfl) (Or.inl rfl) hs⟩
      have hlong := g.long
      have hpage := finishSpan_long c after (f :: ws) hn (List.append_nil g.bytes) (by omega)
      rw [frameBytes_cons, List.append_assoc, List.nil_append] at hpage
      rw [List.drop_zero]
      exact hpage

/-- The reader on one laid page. -/
def readContent (c : Codec Chunk) (after : UInt64) (st : SpanState) (p : PageContent) :
    Option (List (Record Chunk) × SpanState) :=
  readPage c after st p.view.isCont p.view.isEnd p.view.data

/-- **Step.** From a page whose shape it survives the reader takes exactly the
    records that are now complete. -/
theorem InSync.step (c : Codec Chunk) (after : UInt64) {mid : Carry} (h : InSync s owed st carry)
    (hp : PageStep carry p fs mid) (hs : s.next p.shape = some s') :
    ∃ now st' owed', readContent c after st p = some (now.flatMap (kept c after), st') ∧
      InSync s' owed' st' mid ∧ owed ++ (carry.frames ++ fs) = now ++ (owed' ++ mid.frames) := by
  cases hp with
  | @middle f n hmore =>
      obtain ⟨st', hread, rfl, hsync⟩ := h.middle hmore hs
      refine ⟨[], st', [], ?_, hsync, rfl⟩
      simpa [readContent, PageContent.view, PageContent.data, Lead.bytes] using hread
  | @close _ next lead ws ho hn =>
      cases ho with
      | fresh =>
          obtain rfl := h.owed_nil
          obtain ⟨now, st', owed', hread, hsync, hframes⟩ := h.fresh hn hs
          refine ⟨now, st', owed', hread, hsync, ?_⟩
          rw [← List.append_assoc now]
          exact hframes
      | @tail f n hmore =>
          obtain ⟨st', hread, hsync⟩ := h.tail hn hs
          refine ⟨owed ++ f :: ws, st', [], hread, hsync, ?_⟩
          simp [Carry.frames]

/-- **Run.** Over pages of survivable shapes the reader takes exactly the records
    that are complete at their end, whatever pages come behind. -/
theorem InSync.run (c : Codec Chunk) (after : UInt64) {last : Carry} (h : InSync s owed st carry)
    (hps : Laid carry ps fs last) (hs : s.follows (ps.map PageContent.shape) = true) :
    ∃ now s' st' owed', InSync s' owed' st' last ∧
      owed ++ (carry.frames ++ fs) = now ++ (owed' ++ last.frames) ∧
      (∀ more, s.follows (ps.map PageContent.shape ++ more) = s'.follows more) ∧
      ∀ more, readViews c after st (ps.map PageContent.view ++ more) =
        (readViews c after st' more).map (now.flatMap (kept c after) ++ ·) := by
  induction hps generalizing s owed st with
  | nil => exact ⟨[], s, st, owed, h, by simp, fun _ => rfl, fun _ => by simp⟩
  | @cons carry mid last p ps now later hp hps ih =>
      rw [List.map_cons, Sync.follows] at hs
      cases hnext : s.next p.shape with
      | none => simp [hnext] at hs
      | some s₁ =>
          rw [hnext] at hs
          obtain ⟨out, st₁, owed₁, hread, hsync, hframes⟩ := h.step c after hp hnext
          obtain ⟨out', s', st', owed', hlast, hrest, hfollows, hviews⟩ := ih hsync hs
          refine ⟨out ++ out', s', st', owed', hlast, ?_, fun more => ?_, fun more => ?_⟩
          · -- the records of the first page, then those of the others
            have hall := congrArg (· ++ later) hframes
            simp only [List.append_assoc] at hall hrest ⊢
            rw [hall, hrest]
          · rw [List.map_cons, List.cons_append, Sync.follows, hnext]
            exact hfollows more
          · unfold readContent at hread
            rw [List.map_cons, List.cons_append, readViews, hread]
            dsimp only
            rw [hviews, Option.map_map, List.flatMap_append]
            simp [Function.comp_def]

/-- A segment of survivable shapes is read back in full. -/
theorem readViews_of_follows (h : InSync s owed st carry) (hps : Laid carry ps fs none)
    (hs : s.follows (ps.map PageContent.shape) = true) :
    readViews c after st (ps.map PageContent.view) =
      some ((owed ++ (carry.frames ++ fs)).flatMap (kept c after)) := by
  obtain ⟨now, s', st', owed', hlast, hframes, -, hviews⟩ := h.run c after hps hs
  obtain rfl := hlast.owed_nil
  have hread := hviews []
  rw [List.append_nil] at hread
  rw [hread, hframes]
  simp [readViews, Carry.frames]

/-! ## Losing step -/

/-- Whatever the reader returns, it claims fewer bytes than were buffered or read. -/
def Loses (c : Codec Chunk) (after : UInt64) (st : SpanState) (vs : List PageView) : Prop :=
  ∀ records, readViews c after st vs = some records →
    claimed records < st.spanBuffer.length + viewBytes vs

/-- A page that loses bytes at once. -/
theorem loses_of_page
    (h : ∀ now st', readPage c after st v.isCont v.isEnd v.data = some (now, st') →
      claimed now + st'.spanBuffer.length < st.spanBuffer.length + v.data.length) :
    Loses c after st (v :: vs) := by
  intro records hread
  rw [readViews] at hread
  cases hpage : readPage c after st v.isCont v.isEnd v.data with
  | none => simp [hpage] at hread
  | some q =>
      rw [hpage] at hread
      obtain ⟨later, hlater, rfl⟩ := Option.map_eq_some_iff.mp hread
      have hnow := h q.1 q.2 hpage
      have hrest := claimed_readViews hlater
      rw [claimed_append, viewBytes_cons]
      omega

/-- A page after which bytes are lost. -/
theorem Loses.cons {st st' : SpanState} {now : List (Record Chunk)}
    (hpage : readPage c after st v.isCont v.isEnd v.data = some (now, st'))
    (h : Loses c after st' vs) : Loses c after st (v :: vs) := by
  intro records hread
  rw [readViews, hpage] at hread
  obtain ⟨later, hlater, rfl⟩ := Option.map_eq_some_iff.mp hread
  have hnow := claimed_readPage hpage
  have hrest := h later hlater
  rw [claimed_append, viewBytes_cons]
  omega

/-- A buffer that holds more than the record it starts with. -/
def Overfull (st : SpanState) : Prop :=
  st.inSpan = true ∧ 4 ≤ st.spanBuffer.length ∧ recordBytes st.spanBuffer < st.spanBuffer.length

theorem readPage_last (hin : st.inSpan = true) (data : Bytes) :
    readPage c after st true true data = finishSpan c after st data := by
  simp [readPage, hin]

/-- On the page where the open record ends an overfull buffer is cleared after
    its first record. -/
theorem Overfull.finishSpan {st st' : SpanState} {data : Bytes} {now : List (Record Chunk)}
    (h : Overfull st) (hread : finishSpan c after st data = some (now, st')) :
    claimed now + st'.spanBuffer.length < st.spanBuffer.length + data.length := by
  obtain ⟨-, hfour, hover⟩ := h
  have htake : toTake st.spanBuffer data = 0 := by
    unfold toTake
    dsimp only
    rw [if_pos hfour, if_neg (by omega), Nat.zero_min]
  unfold Wal.finishSpan at hread
  dsimp only at hread
  rw [htake, List.take_zero, List.drop_zero, List.append_nil, if_pos hfour, if_pos (by omega)]
    at hread
  cases hparse : parseRecords c after data with
  | none => simp [hparse] at hread
  | some q =>
      obtain ⟨more, rest⟩ := q
      rw [hparse] at hread
      obtain ⟨rfl, rfl⟩ := Prod.mk.inj (Option.some.inj hread)
      have hmore := claimed_parseRecords hparse
      have hfirst := claimed_keepRecord_le after c
        (st.spanBuffer.take (recordBytes st.spanBuffer))
      rw [List.length_take] at hfirst
      rw [claimed_append, List.length_nil]
      omega

/-- An overfull buffer loses what is behind its first record. -/
theorem Overfull.loses (h : Overfull st) (hps : Laid (some (f, n)) ps fs none) :
    Loses c after st (ps.map PageContent.view) := by
  induction ps generalizing st n fs with
  | nil => cases hps
  | cons p ps ih =>
      cases hps with
      | cons hp hps =>
          cases hp with
          | middle hmore =>
              -- more bytes pile up behind the first record
              obtain ⟨hin, hfour, hover⟩ := h
              have hpage : readContent c after st
                  ⟨.middle ((f.bytes.drop n).take pageDataSize), [], none⟩ =
                  some ([], ⟨st.spanBuffer ++ (f.bytes.drop n).take pageDataSize, true⟩) := by
                simp [readContent, readPage, hin, PageContent.view, PageContent.data, Lead.bytes]
              have hstill : Overfull
                  ⟨st.spanBuffer ++ (f.bytes.drop n).take pageDataSize, true⟩ := by
                refine ⟨rfl, ?_, ?_⟩
                · rw [List.length_append]
                  omega
                · rw [recordBytes, Bytes.readLe32_append _ hfour, ← recordBytes,
                    List.length_append]
                  omega
              exact Loses.cons hpage (ih hstill hps)
          | close ws ho hn =>
              cases ho with
              | tail hmore =>
                  exact loses_of_page fun now st' hread =>
                    h.finishSpan ((readPage_last h.1 _).symm.trans hread)

/-- Behind a held record a middle page piles up. -/
theorem stuck_held_middle {g : Frame} {gs : List Frame}
    (hmore : n + pageDataSize < f.bytes.length)
    (hps : Laid (some (f, n + pageDataSize)) ps gs none) :
    Loses c after ⟨g.bytes, true⟩
      ((PageContent.mk (.middle ((f.bytes.drop n).take pageDataSize)) [] none).view ::
        ps.map PageContent.view) := by
  have hlong := g.long
  have hpage : readContent c after ⟨g.bytes, true⟩
      ⟨.middle ((f.bytes.drop n).take pageDataSize), [], none⟩ =
      some ([], ⟨g.bytes ++ (f.bytes.drop n).take pageDataSize, true⟩) := by
    simp [readContent, readPage, PageContent.view, PageContent.data, Lead.bytes]
  have hpiece : ((f.bytes.drop n).take pageDataSize).length = pageDataSize := by
    rw [List.length_take, List.length_drop]
    omega
  have hover : Overfull ⟨g.bytes ++ (f.bytes.drop n).take pageDataSize, true⟩ := by
    have hpos : 0 < pageDataSize := by decide
    refine ⟨rfl, ?_, ?_⟩
    · rw [List.length_append]
      omega
    · rw [recordBytes_append, List.length_append, hpiece]
      omega
  exact Loses.cons hpage (hover.loses hps)

/-- In a stale span a page with complete records and a head piles up. -/
theorem stuck_stale {g : Frame} {gs : List Frame} (hmore : n < f.bytes.length)
    (hrest : 0 < (frameBytes ws).length + n) (hps : Laid (some (f, n)) ps gs none) :
    Loses c after ⟨[], true⟩
      ((PageContent.mk .fresh (g :: ws) (Carry.head (some (f, n)))).view ::
        ps.map PageContent.view) := by
  have hlong := g.long
  have hpage : readContent c after ⟨[], true⟩ ⟨.fresh, g :: ws, Carry.head (some (f, n))⟩ =
      some ([], ⟨g.bytes ++ (frameBytes ws ++ f.bytes.take n), true⟩) := by
    simp [readContent, readPage, PageContent.view, PageContent.data, Lead.bytes, Carry.head]
  have hover : Overfull ⟨g.bytes ++ (frameBytes ws ++ f.bytes.take n), true⟩ := by
    refine ⟨rfl, ?_, ?_⟩
    · rw [List.length_append]
      omega
    · rw [recordBytes_append, List.length_append, List.length_append, length_head hmore]
      omega
  exact Loses.cons hpage (hover.loses hps)

theorem claimed_flatMap_kept_le (c : Codec Chunk) (after : UInt64) (ws : List Frame) :
    claimed (ws.flatMap (kept c after)) ≤ (frameBytes ws).length := by
  induction ws with
  | nil => exact Nat.le_refl 0
  | cons f ws ih =>
      have hfirst := claimed_keepRecord_le after c f.bytes
      rw [List.flatMap_cons, claimed_append, frameBytes_cons, List.length_append]
      unfold kept at ih ⊢
      omega

/-- A head behind a record that ends on the page is dropped. -/
theorem stuck_long {g : Frame} {buffer t : Bytes} (hmore : n + 1 < f.bytes.length)
    (hg : buffer ++ t = g.bytes) (hlong : 4 ≤ buffer.length)
    (hv : v = ⟨true, true, t ++ (frameBytes ws ++ f.bytes.take (n + 1))⟩) :
    Loses c after ⟨buffer, true⟩ (v :: vs) := by
  subst hv
  refine loses_of_page fun now st' hread => ?_
  have hpage := @finishSpan_long _ c after g buffer t ws (some (f, n + 1)) hmore hg hlong
  have heq : some (now, st') = some (kept c after g ++ ws.flatMap (kept c after), {}) := by
    rw [← hread, ← hpage]
    rfl
  obtain ⟨rfl, rfl⟩ := Prod.mk.inj (Option.some.inj heq)
  have hfirst := claimed_keepRecord_le after c g.bytes
  have hwhole := claimed_flatMap_kept_le c after ws
  have hlen : buffer.length + t.length = g.bytes.length := by rw [← hg, List.length_append]
  rw [claimed_append, List.length_append, List.length_append, length_head hmore]
  unfold kept at hwhole ⊢
  dsimp only [List.length_nil]
  omega

/-- What follows a record with a short head on its last page is dropped. -/
theorem stuck_short {rest : Bytes} (hshort : n < 4) (hrest : 0 < rest.length)
    (hv : v = ⟨true, true, f.bytes.drop n ++ rest⟩) :
    Loses c after ⟨f.bytes.take n, true⟩ (v :: vs) := by
  subst hv
  have hlong := f.long
  have hhead : (f.bytes.take n).length = n := length_head (by omega)
  have hjoin : f.bytes.take n ++ (f.bytes.drop n ++ rest) = f.bytes ++ rest := by
    rw [← List.append_assoc, List.take_append_drop]
  refine loses_of_page fun now st' hread => ?_
  have hpage := finishSpan_short c after hjoin (by omega)
  have heq : some (now, st') = some (kept c after f, {}) := by
    rw [← hread, ← hpage]
    rfl
  obtain ⟨rfl, rfl⟩ := Prod.mk.inj (Option.some.inj heq)
  have hfirst := claimed_keepRecord_le after c f.bytes
  rw [hhead, List.length_append, List.length_drop]
  unfold kept
  dsimp only [List.length_nil]
  omega

/-- The page that takes a reader out of step costs it bytes. -/
theorem InSync.stuck {gs : List Frame} {mid : Carry} (h : InSync s owed st carry)
    (hp : PageStep carry p fs mid) (hs : s.next p.shape = none) (hps : Laid mid ps gs none) :
    Loses c after st (p.view :: ps.map PageContent.view) := by
  unfold PageContent.shape at hs
  cases hp with
  | middle hmore =>
      -- only a held record is in the way of a middle page
      cases h with
      | held => exact stuck_held_middle hmore hps
      | _ => simp [Sync.next, Lead.shape] at hs
  | close ws ho hn =>
      cases ho with
      | fresh =>
          cases h with
          | idle => rcases mid with _ | ⟨f, n⟩ <;> simp [Sync.next, Lead.shape, Carry.head] at hs
          | stale =>
              rcases mid with _ | ⟨f, n⟩
              · simp [Sync.next, Lead.shape, Carry.head] at hs
              · rcases ws with _ | ⟨g, ws⟩
                · simp [Sync.next, Lead.shape, Carry.head] at hs
                · refine stuck_stale hn ?_ hps
                  rcases ws with _ | ⟨g', ws⟩
                  · rcases n with _ | n
                    · simp [Sync.next, Lead.shape, Carry.head] at hs
                    · omega
                  · have hlong := g'.long
                    rw [frameBytes_cons, List.length_append]
                    omega
      | @tail f n hmore =>
          -- a longer head than none is dropped in every span
          rcases mid with _ | ⟨f', _ | m⟩
          · cases h with
            | shortSpan hshort =>
                rcases ws with _ | ⟨g, ws⟩
                · simp [Sync.next, Lead.shape, Carry.head] at hs
                · refine stuck_short hshort ?_ rfl
                  have hlong := g.long
                  rw [frameBytes_cons, List.length_append, List.length_append]
                  omega
            | _ => simp [Sync.next, Lead.shape, Carry.head] at hs
          · cases h with
            | shortSpan hshort =>
                rcases ws with _ | ⟨g, ws⟩
                · simp [Sync.next, Lead.shape, Carry.head] at hs
                · refine stuck_short hshort ?_ rfl
                  have hlong := g.long
                  rw [frameBytes_cons, List.length_append, List.length_append]
                  omega
            | _ => simp [Sync.next, Lead.shape, Carry.head] at hs
          · have hhead : (f'.bytes.take (m + 1)).length = m + 1 := length_head hn
            cases h with
            | idleSpan => simp [Sync.next, Lead.shape, Carry.head] at hs
            | span hfour _ =>
                refine stuck_long hn (List.take_append_drop n f.bytes) ?_ rfl
                rw [length_head hmore]
                exact hfour
            | shortSpan hshort =>
                refine stuck_short hshort ?_ rfl
                rw [List.length_append]
                exact Nat.lt_of_lt_of_le (Nat.succ_pos m) (by
                  rw [show (Carry.head (some (f', m + 1))).getD [] = f'.bytes.take (m + 1) from rfl,
                    hhead]
                  omega)
            | @held _ g =>
                have hlong := g.long
                refine @stuck_long _ _ _ (f :: ws) _ m _ _ g _ [] hn (List.append_nil _) (by omega) ?_
                rw [frameBytes_cons, List.append_assoc]
                rfl

/-- **Run.** A segment with a shape the reader does not survive loses bytes. -/
theorem loses_of_not_follows (h : InSync s owed st carry) (hps : Laid carry ps fs none)
    (hs : s.follows (ps.map PageContent.shape) = false) :
    Loses c after st (ps.map PageContent.view) := by
  induction ps generalizing s owed fs st carry with
  | nil => simp [Sync.follows] at hs
  | cons p ps ih =>
      cases hps with
      | cons hp hps =>
          rw [List.map_cons, Sync.follows] at hs
          cases hnext : s.next p.shape with
          | none => exact h.stuck hp hnext hps
          | some s' =>
              rw [hnext] at hs
              obtain ⟨out, st', owed', hread, hsync, -⟩ := h.step c after hp hnext
              exact Loses.cons hread (ih hsync hps hs)

/-! ## Bytes on pages -/

/-- Bytes of the open record that are on pages already. -/
def Carry.done : Carry → Nat
  | none => 0
  | some (_, n) => n

theorem PageStep.bytes {mid : Carry} (h : PageStep carry p fs mid) :
    p.data.length + carry.done + (frameBytes mid.frames).length =
      (frameBytes (carry.frames ++ fs)).length + mid.done := by
  cases h with
  | @middle f n hmore =>
      have hpiece : ((f.bytes.drop n).take pageDataSize).length = pageDataSize := by
        rw [List.length_take, List.length_drop]
        omega
      simp only [PageContent.data, Lead.bytes, Carry.done, Carry.frames, frameBytes_nil,
        frameBytes_cons, Option.getD_none, List.append_nil, hpiece]
      omega
  | close ws ho hn =>
      -- what is left of the open record, the complete records, the new head
      have hhead : (mid.head.getD []).length = mid.done := by
        rcases mid with _ | ⟨g, m⟩
        · rfl
        · exact length_head hn
      cases ho with
      | fresh =>
          simp only [PageContent.data, Lead.bytes, Carry.done, Carry.frames, frameBytes_append,
            List.length_append, List.nil_append, hhead]
          omega
      | @tail f n hmore =>
          simp only [PageContent.data, Lead.bytes, Carry.done, Carry.frames, frameBytes_append,
            frameBytes_cons, frameBytes_nil, List.length_append, List.length_drop, List.length_nil,
            hhead]
          omega

theorem Laid.bytes (h : Laid carry ps fs none) :
    viewBytes (ps.map PageContent.view) + carry.done =
      (frameBytes (carry.frames ++ fs)).length := by
  induction ps generalizing carry fs with
  | nil =>
      cases h
      rfl
  | cons p ps ih =>
      cases h with
      | @cons _ mid _ _ _ now later hp hps =>
          have hpage := hp.bytes
          have hrest := ih hps
          rw [List.map_cons, viewBytes_cons]
          rw [frameBytes_append, List.length_append] at hpage hrest ⊢
          rw [frameBytes_append, List.length_append]
          change p.data.length + _ + _ = _
          omega

end Wal
end Otterbrix
