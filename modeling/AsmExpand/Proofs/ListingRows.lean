import AsmExpand.Proofs.LineTokens
import AsmExpand.Proofs.Rendering
import AsmExpand.Run.Report

/-!
# Listings read back

A row of a listing has blanks before its number and two blanks on both sides of its mark, so its
parts can be told apart whatever they are, and numbers of more than four digits are no exception
(`Row.read?_text`). It is one row on the page because the text of a line is: all that can stand in
a line has a spelling without a newline, however it came there.

So the newlines of a listing are those that end its lines, if the title has none: cut at them, it
is three lines of heading, a row for each line of the expansion, an empty line and the counts. The
rows are what is left without three pieces on either side, and they give back what was listed
(`listing_reads_back`).
-/

namespace AsmExpand

/-! ## Rows -/

/-- What the row of a line shows: the number of the line, its mode and its text. -/
structure Row where
  line : Nat
  raw : Bool
  source : String
deriving DecidableEq

def Line.row (l : Line) : Row := ⟨l.line, l.raw, l.text⟩

namespace Row

/-- A row on the page, without the newline that ends it. -/
def text (r : Row) : String :=
  padLeft 4 (Decimal.ofNat r.line) ++ "  " ++ (if r.raw then "R" else " ") ++ "  " ++ r.source

/-- Read a row: a number behind blanks, two blanks, the mark, two blanks and the rest. -/
def read? (text : String) : Option Row :=
  let cs := text.toList.dropWhile (· == ' ')
  match cs.dropWhile (· != ' ') with
  | ' ' :: ' ' :: mark :: ' ' :: ' ' :: rest =>
    (Number.natural? 10 (cs.takeWhile (· != ' '))).map fun n => ⟨n, mark == 'R', String.ofList rest⟩
  | _ => none

/-- The characters of a row. -/
theorem toList_text (r : Row) : r.text.toList
    = List.replicate (4 - (Decimal.ofNat r.line).length) ' '
      ++ (Decimal.digits r.line
        ++ ' ' :: ' ' :: (if r.raw then 'R' else ' ') :: ' ' :: ' ' :: r.source.toList) := by
  cases hr : r.raw <;> simp [text, padLeft, Decimal.ofNat, hr]

end Row

theorem Decimal.notMem_of_mem_digits {n : Nat} {c : Char} (hc : c ∈ digits n) :
    c ∉ [' ', '\n'] := by
  have table : ∀ b : Byte, b.isDigit = true → b.toChar ∉ [' ', '\n'] :=
    Byte.forall_of_fin (by decide +kernel)
  obtain ⟨b, tail, hds, hall⟩ := exists_digits n
  rw [hds] at hc
  obtain ⟨d, hd, rfl⟩ := List.mem_map.mp hc
  exact table d (hall d hd)

/-- **A row gives back what it shows**, whatever that is. -/
theorem Row.read?_text (r : Row) : read? r.text = some r := by
  obtain ⟨n, raw, source⟩ := r
  have hdigits : ∀ c ∈ Decimal.digits n, (c != ' ') = true := by
    intro c hc
    have := Decimal.notMem_of_mem_digits hc
    simp_all
  have hblanks : (text ⟨n, raw, source⟩).toList.dropWhile (· == ' ')
      = Decimal.digits n
        ++ ' ' :: ' ' :: (if raw then 'R' else ' ') :: ' ' :: ' ' :: source.toList := by
    rw [toList_text, List.dropWhile_append_of_pos (by simp +contextual)]
    -- the first digit is no blank
    obtain ⟨b, tail, hds, -⟩ := Decimal.exists_digits n
    have hfirst := hdigits b.toChar (by rw [hds]; exact List.mem_cons_self)
    rw [hds, Lexeme.chars, List.map_cons, List.cons_append, List.dropWhile_cons_of_neg]
    simpa using hfirst
  rw [read?, hblanks, List.dropWhile_append_of_pos hdigits, List.takeWhile_append_of_pos hdigits,
    List.takeWhile_cons_of_neg (by decide), List.append_nil, Decimal.natural?_digits,
    List.dropWhile_cons_of_neg (by decide)]
  cases raw <;> simp

/-! ## Lines on a page -/

/-- A text is one line on a page. -/
def OneLine (text : String) : Prop := '\n' ∉ text.toList

instance (text : String) : Decidable (OneLine text) := inferInstanceAs (Decidable (_ ∉ _))

theorem OneLine.append {s t : String} (hs : OneLine s) (ht : OneLine t) : OneLine (s ++ t) := by
  intro h
  rw [String.toList_append] at h
  exact (List.mem_append.mp h).elim hs ht

theorem oneLine_ofNat (n : Nat) : OneLine (Decimal.ofNat n) := by
  intro h
  rw [Decimal.ofNat, String.toList_ofList] at h
  exact Decimal.notMem_of_mem_digits h (by simp)

theorem oneLine_padLeft {width : Nat} {text : String} (h : OneLine text) :
    OneLine (padLeft width text) := by
  refine OneLine.append (fun hb => ?_) h
  rw [String.toList_ofList] at hb
  exact absurd (List.eq_of_mem_replicate hb) (by decide)

/-- A row is one line if what it shows is one. -/
theorem Row.oneLine_text {r : Row} (h : OneLine r.source) : OneLine r.text := by
  have hmark : OneLine (if r.raw then "R" else " ") := by
    cases r.raw <;> decide
  have hblank : OneLine "  " := by decide
  exact ((((oneLine_padLeft (oneLine_ofNat r.line)).append hblank).append hmark).append
    hblank).append h

/-- **The text of a line is one line**, whatever its tokens are. -/
theorem Line.WellFormed.oneLine_text {limit : Nat} {l : Line} (h : l.WellFormed limit) :
    OneLine l.text := by
  have hbytes : Byte.newline ∉ Utf8.bytes l.text := newline_notMem_rendered true h.readable
  intro hmem
  rw [← List.count_eq_zero, Utf8.count_newline_bytes, List.count_eq_zero] at hbytes
  exact hbytes hmem

theorem wellFormed_of_mem_expand (c : Config) {source : String} {l : Line}
    (h : l ∈ (c.expand source).lines) : l.WellFormed c.settings.limits.maxStringLength := by
  unfold Config.expand at h
  split at h
  · exact (wellFormed_of_mem_expandSourceRaw h).2
  · exact wellFormed_of_mem_expandSource h

/-- The pieces of a text between its newlines. -/
def pieces (text : String) : List String := (text.toList.splitOn '\n').map String.ofList

/-- Lines that end in newlines are the pieces of their text, and nothing is behind the last one. -/
theorem pieces_join {lines : List String} (h : ∀ line ∈ lines, OneLine line) :
    pieces (String.join (lines.map (· ++ "\n"))) = lines ++ [""] := by
  induction lines with
  | nil => rfl
  | cons line lines ih =>
    have hline : ∀ c ∈ line.toList, (c == '\n') = false := by
      intro c hc
      exact beq_eq_false_iff_ne.mpr fun e => h line List.mem_cons_self (e ▸ hc)
    have htext : (String.join ((line :: lines).map (· ++ "\n"))).toList
        = line.toList ++ '\n' :: (String.join (lines.map (· ++ "\n"))).toList := by
      rw [List.map_cons, String.join_cons, String.toList_append, String.toList_append,
        List.append_assoc]
      rfl
    rw [pieces, htext, List.splitOn_eq_splitOnP,
      List.splitOnP_append_cons_of_forall_mem hline '\n' (beq_self_eq_true _), List.map_cons,
      String.ofList_toList, ← List.splitOn_eq_splitOnP]
    exact congrArg (line :: ·) (ih fun l hl => h l (List.mem_cons_of_mem _ hl))

/-! ## Listings -/

namespace Expansion

/-- The last line of a listing. -/
def counts (e : Expansion) : String :=
  "Lines: " ++ Decimal.ofNat e.lines.length ++ "  Errors: " ++ Decimal.ofNat e.diagnostics.size

theorem oneLine_counts (e : Expansion) : OneLine e.counts := by
  have hlines : OneLine "Lines: " := by decide
  have herrors : OneLine "  Errors: " := by decide
  exact ((hlines.append (oneLine_ofNat _)).append herrors).append (oneLine_ofNat _)

/-- The lines of a listing, without the newlines that end them. -/
def page (e : Expansion) (title : String) : List String :=
  [title, "LINE  M  SOURCE", "----  -  ------"] ++ e.lines.map (fun l => l.row.text)
    ++ ["", e.counts]

theorem listing_eq_join (e : Expansion) (title : String) :
    e.listing title = String.join ((e.page title).map (· ++ "\n")) := by
  have hrows : e.lines.map Listing.row = (e.lines.map fun l => l.row.text).map (· ++ "\n") := by
    rw [List.map_map]
    rfl
  rw [listing, Listing.print, hrows, page, ← String.toList_inj]
  simp [Listing.header, Listing.footer, counts, String.toList_join]

/-- Every line of a listing is one, if the title is. -/
theorem oneLine_of_mem_page {e : Expansion} {title : String} (ht : OneLine title)
    (hlines : ∀ l ∈ e.lines, OneLine l.text) : ∀ line ∈ e.page title, OneLine line := by
  intro line hline
  simp only [page, List.mem_append, List.mem_cons, List.mem_map, List.not_mem_nil,
    or_false] at hline
  rcases hline with ((rfl | rfl | rfl) | ⟨l, hl, rfl⟩) | rfl | rfl
  · exact ht
  · decide
  · decide
  · exact Row.oneLine_text (hlines l hl)
  · decide
  · exact e.oneLine_counts

theorem pieces_listing {e : Expansion} {title : String} (ht : OneLine title)
    (hlines : ∀ l ∈ e.lines, OneLine l.text) : pieces (e.listing title) = e.page title ++ [""] := by
  rw [listing_eq_join, pieces_join (oneLine_of_mem_page ht hlines)]

end Expansion

/-- The rows of a listing, read: its pieces without the heading, and without the empty line, the
counts and what is behind them. -/
def readListing (listing : String) : List (Option Row) :=
  let rows := (pieces listing).drop 3
  (rows.take (rows.length - 3)).map Row.read?

theorem Expansion.readListing_listing {e : Expansion} {title : String} (ht : OneLine title)
    (hlines : ∀ l ∈ e.lines, OneLine l.text) :
    readListing (e.listing title) = e.lines.map fun l => some l.row := by
  have hrows : (pieces (e.listing title)).drop 3
      = e.lines.map (fun l => l.row.text) ++ ["", e.counts, ""] := by
    rw [pieces_listing ht hlines]
    simp [page]
  rw [readListing, hrows, List.length_append, List.take_left' (by simp), List.map_map]
  refine List.map_congr_left fun l _ => ?_
  rw [Function.comp_apply, Row.read?_text]

/-- **A listing has a row for each line of the expansion, and gives back what it lists.** Whatever
was expanded, its pieces are three lines of heading, the rows in order, an empty line and the
counts, with nothing behind the last newline; and listings that are the same under the same title
list the same. -/
theorem listing_reads_back (c : Config) (title source : String) (ht : '\n' ∉ title.toList) :
    let e := c.expand source
    pieces (e.listing title)
        = [title, "LINE  M  SOURCE", "----  -  ------"] ++ e.lines.map (fun l => l.row.text)
          ++ ["", "Lines: " ++ Decimal.ofNat e.lines.length
            ++ "  Errors: " ++ Decimal.ofNat e.diagnostics.size, ""] ∧
      readListing (e.listing title) = e.lines.map (fun l => some ⟨l.line, l.raw, l.text⟩) ∧
      ∀ (c' : Config) (source' : String), (c'.expand source').listing title = e.listing title →
        (c'.expand source').lines.map (fun l => (l.line, l.raw, l.text))
          = e.lines.map (fun l => (l.line, l.raw, l.text)) := by
  have hlines : ∀ (c : Config) (source : String), ∀ l ∈ (c.expand source).lines, OneLine l.text :=
    fun c _ _ hl => (wellFormed_of_mem_expand c hl).oneLine_text
  have hread : ∀ (c : Config) (source : String), readListing ((c.expand source).listing title)
      = (c.expand source).lines.map fun l => some l.row :=
    fun c source => Expansion.readListing_listing ht (hlines c source)
  intro e
  refine ⟨?_, hread c source, fun c' source' h => ?_⟩
  · rw [Expansion.pieces_listing ht (hlines c source)]
    simp [Expansion.page, Expansion.counts, e]
  · have hrows : (c'.expand source').lines.map (fun l => some l.row)
        = e.lines.map fun l => some l.row := by rw [← hread, h, hread]
    have hparts := congrArg
      (List.map fun row : Option Row => row.map fun r => (r.line, r.raw, r.source)) hrows
    rw [List.map_map, List.map_map] at hparts
    refine List.map_injective_iff.mpr (fun _ _ => Option.some.inj) ?_
    rw [List.map_map, List.map_map]
    exact hparts

/-- A block, and behind it a string with a newline in it. -/
theorem listing_reads_back_block :
    let listing := ((⟨["a.s"], none, {}, false⟩ : Config).expand
      ".macro m\n  .endmacro\n.byte \"a\\nb\"\n").listing "a.s"
    pieces listing = ["a.s", "LINE  M  SOURCE", "----  -  ------", "   1  R  .MACRO m",
        "   2  R  .ENDMACRO", "   3     .BYTE \"a\\nb\"", "", "Lines: 3  Errors: 0", ""] ∧
      readListing listing = [some ⟨1, true, ".MACRO m"⟩, some ⟨2, true, ".ENDMACRO"⟩,
        some ⟨3, false, ".BYTE \"a\\nb\""⟩] := by
  obtain ⟨hpieces, hread, -⟩ := listing_reads_back ⟨["a.s"], none, {}, false⟩ "a.s"
    ".macro m\n  .endmacro\n.byte \"a\\nb\"\n" (by decide)
  exact ⟨hpieces.trans (by decide +kernel), hread.trans (by decide +kernel)⟩

end AsmExpand
