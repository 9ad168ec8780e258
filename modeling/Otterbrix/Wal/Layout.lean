/-
  Otterbrix.Wal.Layout

  How records lie on pages, and that the page writer lays them so.

  A page starts fresh, in the middle of a record, or with the tail of one; then
  come complete records; then possibly the head of a record that continues on
  the next page (the head may be empty: a page that is exactly full is flushed
  when the next record arrives).  `PageStep` relates a page to the record that
  is open before and after it, `Laid` is its closure over a list of pages.

  The shape of the pages (how each starts, how many complete records it has,
  how long its head is) depends on the sizes of the records and the flush
  points alone; `layout` computes it.
-/
import Otterbrix.Wal.PageWriter
import Otterbrix.Wal.PageReader

namespace Otterbrix
namespace Wal

variable {Chunk : Type}

/-! ## Page contents -/

/-- The bytes of consecutive records. -/
def frameBytes (fs : List Frame) : Bytes := (fs.map Frame.bytes).flatten

@[simp] theorem frameBytes_nil : frameBytes [] = [] := rfl

@[simp] theorem frameBytes_cons (f : Frame) (fs : List Frame) :
    frameBytes (f :: fs) = f.bytes ++ frameBytes fs := rfl

@[simp] theorem frameBytes_append (fs gs : List Frame) :
    frameBytes (fs ++ gs) = frameBytes fs ++ frameBytes gs := by
  simp [frameBytes]

/-- How a page starts. -/
inductive Lead where
  | fresh
  | middle (piece : Bytes)
  | tail (piece : Bytes)

def Lead.bytes : Lead → Bytes
  | .fresh => []
  | .middle piece => piece
  | .tail piece => piece

/-- What lies on a page.  `head` is the part of a record that continues on the
    next page. -/
structure PageContent where
  lead : Lead
  whole : List Frame
  head : Option Bytes

def PageContent.data (p : PageContent) : Bytes :=
  p.lead.bytes ++ (frameBytes p.whole ++ p.head.getD [])

/-- What the reader is shown of it: CONT on every page with a piece of a
    spanning record, END on the page where one ends. -/
def PageContent.view (p : PageContent) : PageView where
  isCont :=
    match p.lead with
    | .fresh => p.head.isSome
    | _ => true
  isEnd :=
    match p.lead with
    | .tail _ => true
    | _ => false
  data := p.data

/-- The record that is open between two pages, with the number of its bytes
    already on pages. -/
abbrev Carry := Option (Frame × Nat)

def Carry.head : Carry → Option Bytes
  | none => none
  | some (f, n) => some (f.bytes.take n)

def Carry.frames : Carry → List Frame
  | none => []
  | some (f, _) => [f]

/-- Some bytes of the open record are still to come. -/
def Carry.Proper : Carry → Prop
  | none => True
  | some (f, n) => n < f.bytes.length

/-- How a page that is not a middle one starts, given the open record. -/
inductive Opens : Carry → Lead → Prop where
  | fresh : Opens none .fresh
  | tail {f : Frame} {n : Nat} (h : n < f.bytes.length) :
      Opens (some (f, n)) (.tail (f.bytes.drop n))

/-- One page: the record open before it, the records that start on it, the
    record open after it. -/
inductive PageStep : Carry → PageContent → List Frame → Carry → Prop where
  | middle {f : Frame} {n : Nat} (h : n + pageDataSize < f.bytes.length) :
      PageStep (some (f, n)) ⟨.middle ((f.bytes.drop n).take pageDataSize), [], none⟩ []
        (some (f, n + pageDataSize))
  | close {carry next : Carry} {lead : Lead} (ws : List Frame) (ho : Opens carry lead)
      (hn : next.Proper) :
      PageStep carry ⟨lead, ws, next.head⟩ (ws ++ next.frames) next

/-- Consecutive pages. -/
inductive Laid : Carry → List PageContent → List Frame → Carry → Prop where
  | nil {carry : Carry} : Laid carry [] [] carry
  | cons {carry mid last : Carry} {p : PageContent} {ps : List PageContent} {fs gs : List Frame}
      (hp : PageStep carry p fs mid) (hps : Laid mid ps gs last) :
      Laid carry (p :: ps) (fs ++ gs) last

theorem Laid.snoc {carry mid last : Carry} {p : PageContent} {ps : List PageContent}
    {fs gs : List Frame} (h : Laid carry ps fs mid) (hp : PageStep mid p gs last) :
    Laid carry (ps ++ [p]) (fs ++ gs) last := by
  induction h with
  | nil => simpa using Laid.cons hp Laid.nil
  | cons hq _ ih =>
      rw [List.cons_append, List.append_assoc]
      exact Laid.cons hq (ih hp)

/-! ## Shapes -/

inductive LeadShape where
  | fresh
  | middle
  | tail
  deriving DecidableEq, Repr

/-- A page by its counts: how it starts, its complete records, and the length
    of the head of the record that continues on the next page. -/
structure PageShape where
  lead : LeadShape
  whole : Nat
  head : Option Nat
  deriving DecidableEq, Repr

def Lead.shape : Lead → LeadShape
  | .fresh => .fresh
  | .middle _ => .middle
  | .tail _ => .tail

def PageContent.shape (p : PageContent) : PageShape where
  lead := p.lead.shape
  whole := p.whole.length
  head := p.head.map List.length

/-- What is done to a segment: records are appended, the page is flushed. -/
inductive WriteOp (α : Type) where
  | append (record : α)
  | flush

def WriteOp.map {α β : Type} (f : α → β) : WriteOp α → WriteOp β
  | .append r => .append (f r)
  | .flush => .flush

/-- The records appended by a list of operations. -/
def appended {α : Type} : List (WriteOp α) → List α
  | [] => []
  | .append r :: ops => r :: appended ops
  | .flush :: ops => appended ops

/-- Pages closed so far and the counts of the open one. -/
structure LayoutState where
  closed : List PageShape := []
  lead : LeadShape := .fresh
  whole : Nat := 0
  used : Nat := 0
  deriving DecidableEq, Repr

namespace LayoutState

def flush (s : LayoutState) : LayoutState :=
  if s.used = 0 then s else { closed := s.closed ++ [⟨s.lead, s.whole, none⟩] }

/-- A record of `size` bytes: it fits, or it fills the page, takes as many full
    pages as it needs and leaves its tail on a new one. -/
def append (s : LayoutState) (size : Nat) : LayoutState :=
  let space := pageDataSize - s.used
  if size ≤ space then { s with whole := s.whole + 1, used := s.used + size }
  else
    let rest := size - space
    let middles := (rest - 1) / pageDataSize
    { closed := s.closed ++ ⟨s.lead, s.whole, some space⟩ ::
        List.replicate middles ⟨.middle, 0, none⟩
      lead := .tail
      whole := 0
      used := rest - middles * pageDataSize }

def step (s : LayoutState) : WriteOp Nat → LayoutState
  | .append size => s.append size
  | .flush => s.flush

end LayoutState

/-- The shapes of the pages of a segment after a final flush, from the sizes of
    the appended records. -/
def layout (ops : List (WriteOp Nat)) : List PageShape :=
  (ops.foldl LayoutState.step {}).flush.closed

end Wal
end Otterbrix
