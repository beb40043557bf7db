import Plic.Viewer.Screen
import Plic.Viewer.Session

/-!
# The screen is always full

The parts of the screen are drawn apart, each to a size of its own, and are then put side by side
and one above the other. Rows that do not match would be cut there without a word, and a screen
that was painted with such a picture would lose them for good. So every part has to have exactly
the size that it was drawn for, also when it is smaller than its own border.

Main results:

* `isOfSize_draw` — a session is drawn to the size of the screen, whatever it shows.
* `isOfSize_paint`, `isOfSize_paintAll` — a screen keeps its size when it is painted, and so it does
  over all sessions that are drawn on it.
-/

namespace Plic.Viewer

/-- The picture has `height` rows of `width` cells. -/
structure Picture.IsOfSize (p : Picture) (width height : Nat) : Prop where
  rows  : p.length = height
  cells : ∀ r ∈ p, r.length = width

namespace Picture

variable {p left right upper lower inner : Picture} {m n width height : Nat} {style : Style}

/-- A picture is of a size if its first row has the width and the rows below are of the size that is
left. -/
theorem isOfSize_cons_iff {r : Row} :
    IsOfSize (r :: p) width (height + 1) ↔ r.length = width ∧ p.IsOfSize width height := by
  constructor
  · rintro ⟨hrows, hcells⟩
    rw [List.forall_mem_cons] at hcells
    exact ⟨hcells.1, Nat.succ.inj hrows, hcells.2⟩
  · rintro ⟨hr, hrows, hcells⟩
    exact ⟨congrArg Nat.succ hrows, List.forall_mem_cons.mpr ⟨hr, hcells⟩⟩

/-- Rows are cut and filled up to the size asked for, however many and however long they are. -/
theorem isOfSize_fit (width height : Nat) (base : Style) (rows : List Row) :
    (fit width height base rows).IsOfSize width height := by
  constructor
  · simp only [fit, List.length_append, List.length_map, List.length_take, List.length_replicate]
    omega
  · intro r hr
    rcases List.mem_append.mp hr with hr | hr
    · obtain ⟨row, -, rfl⟩ := List.mem_map.mp hr
      exact Row.length_fit width base row
    · rw [List.eq_of_mem_replicate hr, Row.length_blank]

/-- Side by side, the widths add up. -/
theorem IsOfSize.beside (hleft : left.IsOfSize m height) (hright : right.IsOfSize n height) :
    (Picture.beside left right).IsOfSize (m + n) height := by
  constructor
  · rw [Picture.beside, List.length_zipWith, hleft.rows, hright.rows, Nat.min_self]
  · intro r hr
    obtain ⟨i, hi, rfl⟩ := List.mem_iff_getElem.mp hr
    simp only [Picture.beside, List.getElem_zipWith, List.length_append]
    rw [hleft.cells _ (List.getElem_mem _), hright.cells _ (List.getElem_mem _)]

/-- One above the other, the heights add up. -/
theorem IsOfSize.above (hupper : upper.IsOfSize width m) (hlower : lower.IsOfSize width n) :
    (upper ++ lower).IsOfSize width (m + n) := by
  refine ⟨by rw [List.length_append, hupper.rows, hlower.rows], fun r hr => ?_⟩
  exact (List.mem_append.mp hr).elim (hupper.cells r) (hlower.cells r)

/-- The upper edge of a frame is as wide as the frame, whatever its title. -/
theorem length_topEdge (width : Nat) (style : Style) (title : String) :
    (topEdge width style title).length = width := by
  simp only [topEdge, edge, List.length_take, List.length_append, List.length_replicate,
    List.length_map]
  omega

theorem length_bottomEdge (width : Nat) (style : Style) :
    (bottomEdge width style).length = width := by
  simp only [bottomEdge, edge, List.length_take, List.length_append, List.length_replicate]
  omega

/-- A border adds two cells each way. Where there are fewer than two, it is cut. -/
theorem IsOfSize.framed (title : String) (hinner : inner.IsOfSize (width - 2) (height - 2)) :
    (Picture.framed width height style title inner).IsOfSize width height := by
  constructor
  · simp only [Picture.framed, List.length_take, List.length_append, List.length_cons,
      List.length_map, hinner.rows, List.length_nil]
    omega
  · intro r hr
    have hr := List.mem_of_mem_take hr
    -- the top edge, a row between the side edges, or the bottom edge
    rcases List.mem_append.mp hr with hr | hr
    · rcases List.mem_cons.mp hr with rfl | hr
      · exact length_topEdge width style title
      · obtain ⟨row, hrow, rfl⟩ := List.mem_map.mp hr
        have hlength := hinner.cells row (List.mem_of_mem_take hrow)
        simp only [edge, List.length_take, List.length_append, List.length_replicate, hlength]
        omega
    · rw [List.mem_singleton.mp hr]
      exact length_bottomEdge width style

end Picture

open Picture (IsOfSize)

/-! ## Panes -/

/-- A pane is a border around as many rows as it leaves room for. -/
theorem isOfSize_framedRows (width height : Nat) (focused : Bool) (title : String) (base : Style)
    (rows : List Row) : (framedRows width height focused title base rows).IsOfSize width height :=
  (Picture.isOfSize_fit _ _ base rows).framed title

/-- The three panes have the size that they are given, whatever they show. -/
theorem isOfSize_sourcePane (width height : Nat) (focused : Bool) (offset : Nat) (source : String)
    (faultLine : Option Nat) :
    (sourcePane width height focused offset source faultLine).picture.IsOfSize width height :=
  isOfSize_framedRows ..

theorem isOfSize_codePane (width height : Nat) (focused : Bool) (offset : Nat)
    (result : Except Fault Compiled) :
    (codePane width height focused offset result).picture.IsOfSize width height := by
  cases result <;> exact isOfSize_framedRows ..

theorem isOfSize_outputPane (width height : Nat) (focused : Bool) (offset : Nat)
    (output : Option RunOutput) (canRun : Bool) :
    (outputPane width height focused offset output canRun).picture.IsOfSize width height := by
  cases output <;> exact isOfSize_framedRows ..

/-- A share of a length is no longer than the length. -/
theorem share_le {percent : Nat} (hpercent : percent ≤ 100) (length : Nat) :
    share percent length ≤ length := by
  have hproduct : percent * length ≤ 100 * length := Nat.mul_le_mul_right length hpercent
  unfold share
  omega

/-- The bar is one row with a message on its left and the keys on its right, which share its width,
and blank rows below if it is given more than one. -/
theorem isOfSize_statusBar (width height : Nat) (s : Status) :
    (statusBar width height s).IsOfSize width height := by
  have hshare : share 50 width ≤ width := share_le (by omega) width
  constructor
  · simp only [statusBar, List.length_take, List.length_cons, List.length_replicate]
    omega
  · intro r hr
    rcases List.mem_cons.mp (List.mem_of_mem_take hr) with rfl | hr
    · simp only [List.length_append, Row.length_fit, Row.length_fitRight]
      omega
    · rw [List.eq_of_mem_replicate hr, Row.length_blank]

/-- A session is drawn to the size of the screen. The panes share out its width and what the bar
leaves of its height, and nothing is lost in the rounding. -/
theorem isOfSize_draw (s : Session) (width height : Nat) :
    (s.draw width height).1.IsOfSize width height := by
  have hwidth : share 45 width ≤ width := share_le (by omega) width
  have hheight : share 70 (height - min 1 height) ≤ height - min 1 height :=
    share_le (by omega) _
  -- the code above the output, the source beside both, and the status below
  have hright := (isOfSize_codePane (width - share 45 width) (share 70 (height - min 1 height))
    (s.focus = .code) s.offsets.code s.result).above
    (isOfSize_outputPane (width - share 45 width)
      (height - min 1 height - share 70 (height - min 1 height)) (s.focus = .output)
      s.offsets.output s.output s.canRun)
  rw [Nat.add_sub_of_le hheight] at hright
  have hbody := (isOfSize_sourcePane (share 45 width) (height - min 1 height) (s.focus = .source)
    s.offsets.source s.source s.faultLine).beside hright
  rw [Nat.add_sub_of_le hwidth] at hbody
  have hscreen := hbody.above (isOfSize_statusBar width (min 1 height) s.status)
  rwa [Nat.sub_add_cancel (Nat.min_le_right 1 height)] at hscreen

/-! ## Screens -/

/-- What was painted and the last picture both have the size of the screen. -/
structure Screen.IsOfSize (s : Screen) (width height : Nat) : Prop where
  painted : s.painted.IsOfSize width height
  last    : s.last.IsOfSize width height

namespace Screen

variable {width height : Nat}

/-- A new screen is of its size, which is where every painting starts. -/
theorem isOfSize_blank (width height : Nat) : (blank width height).IsOfSize width height := by
  have hblank : Picture.IsOfSize (List.replicate height (Row.blank width .plain)) width height :=
    ⟨List.length_replicate .., fun r hr => by
      rw [List.eq_of_mem_replicate hr, Row.length_blank]⟩
  exact ⟨hblank, hblank⟩

/-- A row is painted cell by cell: where the three rows have one length, so has the result. -/
theorem length_repaintRow (covered : Bool) (stale : Nat) (painted old new : Row)
    (hold : old.length = painted.length) (hnew : new.length = painted.length) :
    (repaintRow covered stale painted old new).length = painted.length := by
  induction painted generalizing covered stale old new with
  | nil => simp [repaintRow]
  | cons p ps ih =>
    obtain ⟨o, os, rfl⟩ := List.exists_cons_of_length_eq_add_one hold
    obtain ⟨n, ns, rfl⟩ := List.exists_cons_of_length_eq_add_one hnew
    simp only [repaintRow, List.length_cons, Nat.add_right_cancel_iff] at hold hnew ⊢
    exact ih _ _ os ns hold hnew

/-- Repainting goes row by row and cell by cell through what was painted, the last picture and the
new one. None of the three may end before the others. -/
theorem isOfSize_repaint {painted old new : Picture} (hpainted : painted.IsOfSize width height)
    (hold : old.IsOfSize width height) (hnew : new.IsOfSize width height) :
    (repaint painted old new).IsOfSize width height := by
  induction painted generalizing old new height with
  | nil => exact ⟨hpainted.rows, by simp [repaint]⟩
  | cons p ps ih =>
    obtain rfl : ps.length + 1 = height := hpainted.rows
    -- all three pictures have the same number of rows, so they are taken apart together
    obtain ⟨o, os, rfl⟩ := List.exists_cons_of_length_eq_add_one hold.rows
    obtain ⟨n, ns, rfl⟩ := List.exists_cons_of_length_eq_add_one hnew.rows
    obtain ⟨hp, hps⟩ := Picture.isOfSize_cons_iff.mp hpainted
    obtain ⟨ho, hos⟩ := Picture.isOfSize_cons_iff.mp hold
    obtain ⟨hn, hns⟩ := Picture.isOfSize_cons_iff.mp hnew
    rw [repaint, Picture.isOfSize_cons_iff]
    refine ⟨?_, ih hps hos hns⟩
    rw [length_repaintRow _ _ _ _ _ (ho.trans hp.symm) (hn.trans hp.symm), hp]

/-- A screen keeps its size when a picture of this size is painted on it. -/
theorem isOfSize_paint {s : Screen} {p : Picture} (hs : s.IsOfSize width height)
    (hp : p.IsOfSize width height) : (s.paint p).IsOfSize width height :=
  ⟨isOfSize_repaint hs.painted hs.last hp, hp⟩

/-- The screen after sessions were drawn on it, one after the other. -/
def paintAll (width height : Nat) (s : Screen) (sessions : List Session) : Screen :=
  sessions.foldl (fun s session => s.paint (session.draw width height).1) s

/-- However often it is painted, the screen has a cell for each of its places. -/
theorem isOfSize_paintAll {s : Screen} (hs : s.IsOfSize width height) (sessions : List Session) :
    (s.paintAll width height sessions).IsOfSize width height := by
  induction sessions generalizing s with
  | nil => exact hs
  | cons session sessions ih => exact ih (isOfSize_paint hs (isOfSize_draw session width height))

end Screen

end Plic.Viewer
