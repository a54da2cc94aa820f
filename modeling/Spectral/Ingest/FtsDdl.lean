import Spectral.Lib.Substring
import Spectral.Ingest.Pipeline

/-!
# The text of the full-text index

The tokenizer of an FTS5 table is fixed by the statement that created it.  The store keeps no other
record of it: it reads the tokenizer back from the text of that statement in `sqlite_master`.

* `resolveFtsTokenizer` — the tokenizer of a configuration, cut down to bare words.
* `FtsDdl.sql` — the statement as SQLite keeps it.
* `parseFtsTokenizeSpec_sql` — what was written is read back.
-/

namespace Spectral

open Spectral.Lib

/-- `DEFAULT_FTS_TOKENIZER`. -/
def defaultFtsTokenizer : String := "porter unicode61"

/-- What a tokenizer may be spelled with. -/
def isSpecChar (c : Char) : Bool := c.isAlphanum || c == ' ' || c == '_'

section Spec

-- `char::is_whitespace`.
variable (isWhitespace : Char → Bool)

/-- `resolve_fts_tokenizer`. -/
def resolveFtsTokenizer (config : Option String) : Option String :=
  let raw := config.getD defaultFtsTokenizer
  let safe := trim isWhitespace (raw.toList.filter isSpecChar)
  if safe = [] then none else some (String.ofList safe)

/-- `fts_tokenize_clause`. -/
def ftsTokenizeClause : Option String → String
  | some t => ", tokenize = '" ++ t ++ "'"
  | none => ""

/-- `parse_fts_tokenize_spec`. -/
def parseFtsTokenizeSpec (sql : String) : Option String := do
  let rest ← fromFirst "tokenize".toList sql.toList
  let opened ← fromFirst ['\''] rest
  let quoted ← upTo '\'' opened.tail
  some (String.ofList (trim isWhitespace quoted))

/-- A tokenizer as `resolve_fts_tokenizer` leaves it. -/
structure CleanSpec (t : String) : Prop where
  bare : ∀ c ∈ t.toList, isSpecChar c = true
  trimmed : trim isWhitespace t.toList = t.toList

/-- The statement that created `memories_fts`: whether it has a column for the description, its
tokenizer, and how far it is indented. -/
structure FtsDdl where
  described : Bool
  tokenizer : Option String
  indent : ℕ

namespace FtsDdl

/-- The columns. -/
def columns (ddl : FtsDdl) : String :=
  if ddl.described then "key, content, description" else "key, content"

/-- What stands before the tokenizer. -/
def head (ddl : FtsDdl) : String :=
  "CREATE VIRTUAL TABLE memories_fts USING fts5(\n" ++
    String.ofList (List.replicate (ddl.indent + 4) ' ') ++ ddl.columns ++ ",\n" ++
      String.ofList (List.replicate (ddl.indent + 4) ' ') ++ "content=memories, content_rowid=rowid"

/-- The text in `sqlite_master`. -/
def sql (ddl : FtsDdl) : String :=
  ddl.head ++ ftsTokenizeClause ddl.tokenizer ++ "\n" ++
    String.ofList (List.replicate ddl.indent ' ') ++ ")"

/-- `fts_has_description`. -/
def hasDescription (ddl : FtsDdl) : Bool := (fromFirst "description".toList ddl.sql.toList).isSome

end FtsDdl

variable {isWhitespace}

theorem cleanSpec_resolve {config : Option String} {t : String}
    (h : t ∈ resolveFtsTokenizer isWhitespace config) : CleanSpec isWhitespace t := by
  simp only [resolveFtsTokenizer, Option.mem_def] at h
  split at h
  · cases h
  · cases h
    constructor
    · intro c hc
      rw [String.toList_ofList, trim, List.mem_reverse] at hc
      have hmem := (List.dropWhile_sublist _).subset (List.mem_reverse.1
        ((List.dropWhile_sublist _).subset hc))
      exact (List.mem_filter.1 hmem).2
    · rw [String.toList_ofList]
      exact strip_strip isWhitespace _

theorem CleanSpec.quote_notMem {t : String} (h : CleanSpec isWhitespace t) : '\'' ∉ t.toList :=
  fun hc => absurd (h.bare _ hc) (by decide)

namespace FtsDdl

variable (ddl : FtsDdl)

theorem hasDescription_of_described {ddl : FtsDdl} (h : ddl.described = true) :
    ddl.hasDescription = true := by
  have hpart : "description".toList <:+: ddl.columns.toList := by
    rw [columns, if_pos h]
    exact ⟨"key, content, ".toList, [], by decide +kernel⟩
  refine isSome_fromFirst_iff.2 (hpart.trans ?_)
  unfold sql head
  simp only [String.toList_append, List.append_assoc]
  rw [← List.append_assoc]
  exact List.infix_append' _ _ _

/-- Before there was a description the statement had no `p`. -/
theorem hasDescription_of_not_described {ddl : FtsDdl} (h : ddl.described = false)
    (htok : ddl.tokenizer = none) : ddl.hasDescription = false := by
  have hcolumns : ddl.columns = "key, content" := by
    unfold columns
    rw [h]
    rfl
  have hblank : ∀ n, 'p' ∉ List.replicate n ' ' := fun n hp =>
    absurd (List.eq_of_mem_replicate hp) (by decide)
  have hp : 'p' ∉ ddl.sql.toList := by
    unfold sql head
    rw [htok, hcolumns]
    simp only [ftsTokenizeClause, String.toList_append, String.toList_ofList, List.mem_append, not_or]
    exact ⟨⟨⟨⟨⟨⟨⟨⟨⟨by decide +kernel, hblank _⟩, by decide +kernel⟩, by decide +kernel⟩, hblank _⟩,
      by decide +kernel⟩, by decide +kernel⟩, by decide +kernel⟩, hblank _⟩, by decide +kernel⟩
  have hword : 'p' ∈ "description".toList := by decide +kernel
  rw [hasDescription, fromFirst_eq_none hword hp]
  rfl

/-- Of the words of the statement only `tokenize` has a `z`. -/
theorem z_notMem_head : 'z' ∉ ddl.head.toList := by
  have hcolumns : 'z' ∉ ddl.columns.toList := by
    unfold columns
    split <;> decide +kernel
  have hblank : ∀ n, 'z' ∉ List.replicate n ' ' := fun n h =>
    absurd (List.eq_of_mem_replicate h) (by decide)
  unfold head
  simp only [String.toList_append, String.toList_ofList, List.mem_append, not_or]
  exact ⟨⟨⟨⟨⟨by decide +kernel, hblank _⟩, hcolumns⟩, by decide +kernel⟩, hblank _⟩, by decide +kernel⟩

end FtsDdl

/-- The tokenizer that a statement names is read back from its text. -/
theorem parseFtsTokenizeSpec_sql {ddl : FtsDdl} (h : ∀ t ∈ ddl.tokenizer, CleanSpec isWhitespace t) :
    parseFtsTokenizeSpec isWhitespace ddl.sql = ddl.tokenizer := by
  have hword : "tokenize".toList = "tokeni".toList ++ 'z' :: ['e'] := by decide +kernel
  have hblank : 'z' ∉ List.replicate ddl.indent ' ' := fun hz =>
    absurd (List.eq_of_mem_replicate hz) (by decide)
  cases htok : ddl.tokenizer with
  | none =>
    have hz : 'z' ∉ ddl.sql.toList := by
      unfold FtsDdl.sql
      rw [htok]
      simp only [ftsTokenizeClause, String.toList_append, String.toList_ofList, List.mem_append, not_or]
      exact ⟨⟨⟨⟨ddl.z_notMem_head, by decide +kernel⟩, by decide +kernel⟩, hblank⟩, by decide +kernel⟩
    rw [parseFtsTokenizeSpec, fromFirst_eq_none (by rw [hword]; simp) hz]
    rfl
  | some t =>
    have ht := h t htok
    set rest := "\n".toList ++ (List.replicate ddl.indent ' ' ++ ")".toList) with hrest
    have hclause : (", tokenize = '").toList =
        ", ".toList ++ ("tokeni".toList ++ 'z' :: ['e']) ++ (" = ".toList ++ ['\'']) := by
      decide +kernel
    have hquote : "'".toList = ['\''] := by decide +kernel
    have hsql : ddl.sql.toList = (ddl.head.toList ++ ", ".toList) ++
        ("tokeni".toList ++ 'z' :: ['e'] ++ (" = ".toList ++ '\'' :: (t.toList ++ '\'' :: rest))) := by
      unfold FtsDdl.sql
      rw [htok]
      simp only [ftsTokenizeClause, String.toList_append, String.toList_ofList, hclause, hquote, hrest]
      simp only [List.append_assoc, List.cons_append, List.nil_append]
    have hz : 'z' ∉ ddl.head.toList ++ ", ".toList := by
      rw [List.mem_append, not_or]
      exact ⟨ddl.z_notMem_head, by decide +kernel⟩
    have hopened : fromFirst ['\''] ("tokeni".toList ++ 'z' :: ['e'] ++
        (" = ".toList ++ '\'' :: (t.toList ++ '\'' :: rest))) =
          some ('\'' :: (t.toList ++ '\'' :: rest)) := by
      have hpre : '\'' ∉ "tokeni".toList ++ 'z' :: ['e'] ++ " = ".toList := by decide +kernel
      have hfound : fromFirst ([] ++ '\'' :: []) ("tokeni".toList ++ 'z' :: ['e'] ++ " = ".toList ++
          ([] ++ '\'' :: [] ++ (t.toList ++ '\'' :: rest))) =
            some ([] ++ '\'' :: [] ++ (t.toList ++ '\'' :: rest)) :=
        fromFirst_append hpre List.not_mem_nil
      simpa only [List.append_assoc, List.cons_append, List.nil_append] using hfound
    rw [parseFtsTokenizeSpec, hsql, hword, fromFirst_append hz (by decide +kernel)]
    simp only [Option.bind_eq_bind, Option.bind_some, hopened, List.tail_cons,
      upTo_append ht.quote_notMem, ht.trimmed, String.ofList_toList]

end Spec

end Spectral
