import Qrypt.Infra.Reader

/-!
# Lines

`bufio.Scanner` with `ScanLines` over a buffer of limited size, and files made of complete lines.

* `scanLines_joinLines` — complete lines that fit the buffer are handed out one by one
* `scanLines_append` — reading goes on where the complete lines end
-/

namespace Infra

open List

/-- `bufio.ScanLines` drops a carriage return at the end of a line. -/
def dropCR (line : Bytes) : Bytes := if line.getLast? = some 13 then line.dropLast else line

/-- The lines of a file; the last one need not be terminated. -/
def splitLines (data : Bytes) : List Bytes :=
  let pieces := data.splitOn 10
  if pieces.getLast? = some [] then pieces.dropLast else pieces

/-- The lines the scanner hands out, and its error: it stops before a line that does not fit its buffer. -/
def scanLines (buffer : Nat) (data : Bytes) : List Bytes × Option Err :=
  let lines := (splitLines data).takeWhile (·.length < buffer)
  (lines.map dropCR, if lines.length < (splitLines data).length then some (.text "bufio.Scanner: token too long")
    else none)

def joinLines (lines : List Bytes) : Bytes := lines.flatMap (· ++ [10])

/-- A text that can be written as one line and read back. -/
structure IsLine (buffer : Nat) (line : Bytes) : Prop where
  newline : 10 ∉ line
  carriageReturn : line.getLast? ≠ some 13
  short : line.length < buffer

theorem joinLines_append (lines more : List Bytes) :
    joinLines (lines ++ more) = joinLines lines ++ joinLines more := flatMap_append

theorem joinLines_singleton (line : Bytes) : joinLines [line] = line ++ [10] := append_nil _

variable {lines : List Bytes}

theorem splitLines_joinLines (h : ∀ l ∈ lines, 10 ∉ l) : splitLines (joinLines lines) = lines := by
  have hsplit : (joinLines lines).splitOn 10 = lines ++ [[]] := by
    induction lines with
    | nil => rfl
    | cons l lines ih =>
      have hjoin : joinLines (l :: lines) = l ++ 10 :: joinLines lines := by
        simp [joinLines]
      rw [hjoin, splitOn_append_cons_self_of_not_mem (h l mem_cons_self),
        ih fun l' hl' => h l' (mem_cons_of_mem l hl')]
      rfl
  unfold splitLines
  simp [hsplit]

variable {buffer : Nat}

theorem map_dropCR (h : ∀ l ∈ lines, IsLine buffer l) : lines.map dropCR = lines := by
  refine (map_congr_left fun l hl => ?_).trans (map_id lines)
  exact if_neg (h l hl).carriageReturn

/-- **Complete lines that fit the buffer are handed out one by one.** -/
theorem scanLines_joinLines (h : ∀ l ∈ lines, IsLine buffer l) :
    scanLines buffer (joinLines lines) = (lines, none) := by
  have htake : lines.takeWhile (fun l => decide (l.length < buffer)) = lines :=
    takeWhile_eq_self_iff.mpr fun l hl => decide_eq_true (h l hl).short
  unfold scanLines
  simp only [splitLines_joinLines fun l hl => (h l hl).newline, htake, map_dropCR h, Nat.lt_irrefl, if_false]

/-! ## Where the complete lines end -/

def completeLines (data : Bytes) : List Bytes := (data.splitOn 10).dropLast

def lastLine (data : Bytes) : Bytes := (data.splitOn 10).getLast?.getD []

theorem splitOn_eq (data : Bytes) : data.splitOn 10 = completeLines data ++ [lastLine data] := by
  have hne : data.splitOn 10 ≠ [] := splitOn_ne_nil 10 data
  have hlast : lastLine data = (data.splitOn 10).getLast hne := by
    simp [lastLine, getLast?_eq_some_getLast hne]
  rw [hlast]
  exact (dropLast_concat_getLast hne).symm

theorem intercalate_eq_joinLines (lines : List Bytes) (last : Bytes) :
    [10].intercalate (lines ++ [last]) = joinLines lines ++ last := by
  induction lines with
  | nil => simp [joinLines]
  | cons l lines ih =>
    rw [cons_append, intercalate_cons_of_ne_nil (by simp), ih]
    simp [joinLines]

theorem joinLines_completeLines (data : Bytes) : joinLines (completeLines data) ++ lastLine data = data := by
  rw [← intercalate_eq_joinLines, ← splitOn_eq, intercalate_splitOn]

theorem not_mem_completeLines {data l : Bytes} (h : l ∈ completeLines data) : 10 ∉ l :=
  not_mem_of_mem_splitOn ((dropLast_sublist _).subset h)

theorem splitOn_joinLines_append (h : ∀ l ∈ lines, 10 ∉ l) (rest : Bytes) :
    (joinLines lines ++ rest).splitOn 10 = lines ++ rest.splitOn 10 := by
  induction lines with
  | nil => rfl
  | cons l lines ih =>
    have hjoin : joinLines (l :: lines) ++ rest = l ++ 10 :: (joinLines lines ++ rest) := by
      simp [joinLines]
    rw [hjoin, splitOn_append_cons_self_of_not_mem (h l mem_cons_self),
      ih fun l' hl' => h l' (mem_cons_of_mem l hl')]
    rfl

theorem lastLine_joinLines_append (h : ∀ l ∈ lines, 10 ∉ l) {rest : Bytes}
    (hrest : 10 ∉ rest) : lastLine (joinLines lines ++ rest) = rest := by
  rw [lastLine, splitOn_joinLines_append h, splitOn_eq_singleton hrest, getLast?_concat]
  rfl

theorem splitLines_append (h : ∀ l ∈ lines, 10 ∉ l) (rest : Bytes) :
    splitLines (joinLines lines ++ rest) = lines ++ splitLines rest := by
  have hne : rest.splitOn 10 ≠ [] := splitOn_ne_nil 10 rest
  have hlast : (lines ++ rest.splitOn 10).getLast? = (rest.splitOn 10).getLast? := by
    simp [getLast?_eq_some_getLast hne]
  unfold splitLines
  simp only [splitOn_joinLines_append h, hlast, dropLast_append_of_ne_nil hne]
  split <;> rfl

theorem scanLines_line {line : Bytes} (h : IsLine buffer line) :
    scanLines buffer line = (if line = [] then [] else [line], none) := by
  have hcr : dropCR line = line := if_neg h.carriageReturn
  by_cases hnil : line = []
  · subst hnil
    rfl
  · have hsplit : splitLines line = [line] := by
      simp [splitLines, splitOn_eq_singleton h.newline, hnil]
    unfold scanLines
    simp [hsplit, h.short, hcr, hnil]

/-- **Reading goes on where the complete lines end**, unless one of them does not fit the buffer. -/
theorem scanLines_append (hnl : ∀ l ∈ lines, 10 ∉ l) (hshort : ∀ l ∈ lines, l.length < buffer) (rest : Bytes) :
    scanLines buffer (joinLines lines ++ rest)
      = (lines.map dropCR ++ (scanLines buffer rest).1, (scanLines buffer rest).2) := by
  have htake : (lines ++ splitLines rest).takeWhile (fun l => decide (l.length < buffer))
      = lines ++ (splitLines rest).takeWhile fun l => decide (l.length < buffer) :=
    takeWhile_append_of_pos fun l hl => decide_eq_true (hshort l hl)
  unfold scanLines
  simp only [splitLines_append hnl, htake, map_append, length_append, Nat.add_lt_add_iff_left]

theorem scanLines_append_of_long (hnl : ∀ l ∈ lines, 10 ∉ l)
    {l : Bytes} (hl : l ∈ lines) (hlong : buffer ≤ l.length) (rest : Bytes) :
    scanLines buffer (joinLines lines ++ rest) = scanLines buffer (joinLines lines) := by
  have htake : ∀ more, (lines ++ more).takeWhile (fun l => decide (l.length < buffer))
      = lines.takeWhile fun l => decide (l.length < buffer) := by
    intro more
    rw [takeWhile_append, if_neg]
    intro hlen
    have hall := takeWhile_eq_self_iff.mp ((List.takeWhile_prefix _).eq_of_length hlen)
    exact absurd (of_decide_eq_true (hall l hl)) (Nat.not_lt.mpr hlong)
  have hstop : (lines.takeWhile fun l => decide (l.length < buffer)).length < lines.length := by
    refine Nat.lt_of_le_of_ne (List.takeWhile_prefix _).length_le fun hlen => ?_
    have hall := takeWhile_eq_self_iff.mp ((List.takeWhile_prefix _).eq_of_length hlen)
    exact absurd (of_decide_eq_true (hall l hl)) (Nat.not_lt.mpr hlong)
  unfold scanLines
  simp only [splitLines_append hnl, splitLines_joinLines hnl, htake, length_append, if_pos hstop,
    if_pos (Nat.lt_add_right _ hstop)]

example : scanLines 4 (ascii "ab\r\n\ncde\nf") = ([ascii "ab", [], ascii "cde", ascii "f"], none) := by
  decide

end Infra
