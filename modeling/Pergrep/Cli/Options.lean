import Mathlib.Data.List.DropRight
import Pergrep.Cli.Main
import Pergrep.Lib.Getopt
import Pergrep.Lib.PlainText
/-!
# Options — the command line

The words of the command line and what they make of `Args`: a table of the long options, one of the short ones, and the
operands, of which the first is the pattern unless one was given.  The grammar of the words themselves is the library's.
What is outside, the files and the standard input, is a `Shell`.
-/
namespace Pergrep.Cli

open Getopt (Action Grammar)
open KeyLines (getLines)
open PlainText (ascii isDigit digitsValue)

/-- `Args`, with the fields that the search does not read. -/
structure CommandArgs extends Args where
  stdinHaystack : Bool := false
  patternFiles : List Bytes := []
  paths : List Bytes := []
  globs : List Bytes := []
  iglobs : List Bytes := []
  types : List Bytes := []
  typeNot : List Bytes := []
  ignoreFiles : List Bytes := []
  preGlobs : List Bytes := []
  colorSpecs : List Bytes := []
  afterExplicit : Bool := false
  beforeExplicit : Bool := false
  contextSeen : Bool := false
  hidden : Bool := false
  follow : Bool := false
  noIgnore : Bool := false
  noIgnoreVcs : Bool := false
  noIgnoreDot : Bool := false
  noIgnoreParent : Bool := false
  noIgnoreGlobal : Bool := false
  noIgnoreExclude : Bool := false
  noIgnoreFiles : Bool := false
  noRequireGit : Bool := false
  noMessages : Bool := false
  noIgnoreMessages : Bool := false
  oneFileSystem : Bool := false
  lineNumber : Bool := false
  column : Bool := false
  byteOffset : Bool := false
  withFilename : Bool := false
  noFilename : Bool := false
  heading : Bool := false
  noHeading : Bool := false
  stats : Bool := false
  trim : Bool := false
  nullOut : Bool := false
  pretty : Bool := false
  blockBuffered : Bool := false
  lineBuffered : Bool := false
  maxColumnsPreview : Bool := false
  globCi : Bool := false
  ignoreFileCi : Bool := false
  searchZip : Bool := false
  color : Bytes := ascii "auto"
  contextSep : Bytes := ascii "--"
  fieldMatchSep : Bytes := ascii ":"
  fieldContextSep : Bytes := ascii "-"
  pathSep : Bytes := []
  encoding : Bytes := ascii "auto"
  engine : Bytes := ascii "default"
  pre : Bytes := []
  hyperlinkFormat : Bytes := []
  hostnameBin : Bytes := []
  maxFilesize : Nat := 0
  maxDepth : Int := -1
  threads : Nat := 0
  maxColumns : Nat := 0
  debug : Bool := false
  trace : Bool := false
  contextSepDisabled : Bool := false
  noConfig : Bool := false

/-! ## Numbers -/

def invalidNumber : Bytes := ascii "invalid numeric value"

/-- The factor that the last byte stands for, and the text before it. -/
def numSuffix (s : Bytes) : Nat × Bytes :=
  match s.getLast? with
  | some 75  => (1024, s.dropLast)
  | some 107 => (1024, s.dropLast)
  | some 77  => (1024 * 1024, s.dropLast)
  | some 109 => (1024 * 1024, s.dropLast)
  | some 71  => (1024 * 1024 * 1024, s.dropLast)
  | some 103 => (1024 * 1024 * 1024, s.dropLast)
  | _        => (1, s)

def num (s : Bytes) : Except Bytes Nat :=
  let mult := (numSuffix s).1
  let digits := (numSuffix s).2
  let x := digitsValue digits
  if digits = [] ∨ digits.all isDigit = false ∨ 2 ^ 64 ≤ x then .error invalidNumber
  else if 1 < mult ∧ (2 ^ 64 - 1) / mult < x then .error invalidNumber
  else .ok (x * mult)

def numInt (s : Bytes) : Except Bytes Nat := do
  let v ← num s
  if 2 ^ 31 ≤ v then throw invalidNumber
  return v

/-! ## The options -/

def text (act : CommandArgs → Bytes → CommandArgs) : Action CommandArgs Bytes := .value fun a v => .ok (act a v)

def number (act : CommandArgs → Nat → CommandArgs) : Action CommandArgs Bytes := .value fun a v => (num v).map (act a)

def int (act : CommandArgs → Nat → CommandArgs) : Action CommandArgs Bytes := .value fun a v => (numInt v).map (act a)

/-- `--context` leaves what `--after-context` and `--before-context` have set. -/
def context (a : CommandArgs) (z : Nat) : CommandArgs :=
  { a with
    after := if a.afterExplicit then a.after else z
    before := if a.beforeExplicit then a.before else z
    contextSeen := true }

def summary (count countMatches filesWith filesWithout : Bool) (a : CommandArgs) : CommandArgs :=
  if a.filesMode then a
  else { a with count := count, countMatches := countMatches, filesWith := filesWith, filesWithout := filesWithout }

def engine (a : CommandArgs) (v : Bytes) : Except Bytes CommandArgs :=
  if v = ascii "default" then .ok { a with engine := v, popt := { a.popt with engine := .default_ } }
  else if v = ascii "pcre2" then .ok { a with engine := v, popt := { a.popt with engine := .pcre2Compat } }
  else if v = ascii "auto" then .ok { a with engine := v, popt := { a.popt with engine := .auto } }
  else .error (ascii "unrecognized engine: " ++ v)

def unrestrict (a : CommandArgs) : CommandArgs :=
  { a with
    unrestricted := a.unrestricted + 1
    noIgnore := true
    hidden := decide (2 ≤ a.unrestricted + 1) || a.hidden
    binary := decide (3 ≤ a.unrestricted + 1) || a.binary }

def longOptions : List (String × Action CommandArgs Bytes) :=
  [("after-context", int fun a n => { a with after := n, afterExplicit := true, contextSeen := true }),
   ("before-context", int fun a n => { a with before := n, beforeExplicit := true, contextSeen := true }),
   ("context", int context),
   ("binary", .flag fun a => { a with binary := true }),
   ("no-binary", .flag fun a => { a with binary := false }),
   ("block-buffered", .flag fun a => { a with blockBuffered := true }),
   ("no-block-buffered", .flag fun a => { a with blockBuffered := false }),
   ("byte-offset", .flag fun a => { a with byteOffset := true }),
   ("no-byte-offset", .flag fun a => { a with byteOffset := false }),
   ("case-sensitive", .flag fun a => { a with popt := { a.popt with caseMode := .sensitive } }),
   ("color", text fun a v => { a with color := v }),
   ("colors", text fun a v => { a with colorSpecs := a.colorSpecs ++ [v] }),
   ("column", .flag fun a => { a with column := true, lineNumber := true }),
   ("no-column", .flag fun a => { a with column := false }),
   ("context-separator", text fun a v => { a with contextSep := v, contextSepDisabled := false }),
   ("no-context-separator", .flag fun a => { a with contextSepDisabled := true }),
   ("count", .flag (summary true false false false)),
   ("count-matches", .flag (summary false true false false)),
   ("crlf", .flag fun a => { a with nullData := false, popt := { a.popt with crlf := true } }),
   ("no-crlf", .flag fun a => { a with popt := { a.popt with crlf := false } }),
   ("debug", .flag fun a => { a with debug := true }),
   ("dfa-size-limit", text fun a _ => a),
   ("encoding", text fun a v => { a with encoding := v }),
   ("engine", .value engine),
   ("field-context-separator", text fun a v => { a with fieldContextSep := v }),
   ("field-match-separator", text fun a v => { a with fieldMatchSep := v }),
   ("files", .flag fun a => { a with filesMode := true }),
   ("files-with-matches", .flag (summary false false true false)),
   ("files-without-match", .flag (summary false false false true)),
   ("fixed-strings", .flag fun a => { a with popt := { a.popt with kind := .fixed } }),
   ("no-fixed-strings", .flag fun a => { a with popt := { a.popt with kind := .regex } }),
   ("follow", .flag fun a => { a with follow := true }),
   ("no-follow", .flag fun a => { a with follow := false }),
   ("generate", text fun a v => { a with generate := v }),
   ("glob", text fun a v => { a with globs := a.globs ++ [v] }),
   ("glob-case-insensitive", .flag fun a => { a with globCi := true }),
   ("no-glob-case-insensitive", .flag fun a => { a with globCi := false }),
   ("heading", .flag fun a => { a with heading := true, noHeading := false }),
   ("no-heading", .flag fun a => { a with noHeading := true, heading := false }),
   ("help", .flag fun a => { a with help := true }),
   ("hidden", .flag fun a => { a with hidden := true }),
   ("no-hidden", .flag fun a => { a with hidden := false }),
   ("hostname-bin", text fun a v => { a with hostnameBin := v }),
   ("hyperlink-format", text fun a v => { a with hyperlinkFormat := v }),
   ("iglob", text fun a v => { a with iglobs := a.iglobs ++ [v] }),
   ("ignore-case", .flag fun a => { a with popt := { a.popt with caseMode := .insensitive } }),
   ("no-ignore-case", .flag fun a => { a with popt := { a.popt with caseMode := .sensitive } }),
   ("ignore-file", text fun a v => { a with ignoreFiles := a.ignoreFiles ++ [v] }),
   ("ignore-file-case-insensitive", .flag fun a => { a with ignoreFileCi := true }),
   ("no-ignore-file-case-insensitive", .flag fun a => { a with ignoreFileCi := false }),
   ("include-zero", .flag fun a => { a with includeZero := true }),
   ("no-include-zero", .flag fun a => { a with includeZero := false }),
   ("invert-match", .flag fun a => { a with sopt := { a.sopt with invertMatch := true } }),
   ("no-invert-match", .flag fun a => { a with sopt := { a.sopt with invertMatch := false } }),
   ("json", .flag fun a => { a with json := true }),
   ("no-json", .flag fun a => { a with json := false }),
   ("line-buffered", .flag fun a => { a with lineBuffered := true }),
   ("no-line-buffered", .flag fun a => { a with lineBuffered := false }),
   ("line-number", .flag fun a => { a with lineNumber := true }),
   ("no-line-number", .flag fun a => { a with lineNumber := false }),
   ("line-regexp", .flag fun a => { a with popt := { a.popt with line := true, word := false } }),
   ("no-line-regexp", .flag fun a => { a with popt := { a.popt with line := false } }),
   ("max-columns", int fun a n => { a with maxColumns := n }),
   ("max-columns-preview", .flag fun a => { a with maxColumnsPreview := true }),
   ("no-max-columns-preview", .flag fun a => { a with maxColumnsPreview := false }),
   ("max-count", number fun a n => { a with maxCount := n, maxCountSet := true }),
   ("max-depth", int fun a n => { a with maxDepth := n }),
   ("max-filesize", number fun a n => { a with maxFilesize := n }),
   ("mmap", .flag id),
   ("no-mmap", .flag id),
   ("multiline", .flag fun a => { a with stopOnNonmatch := false, popt := { a.popt with multiline := true } }),
   ("no-multiline", .flag fun a => { a with popt := { a.popt with multiline := false } }),
   ("multiline-dotall", .flag fun a => { a with popt := { a.popt with dotall := true } }),
   ("no-multiline-dotall", .flag fun a => { a with popt := { a.popt with dotall := false } }),
   ("no-config", .flag fun a => { a with noConfig := true }),
   ("no-ignore", .flag fun a => { a with noIgnore := true }),
   ("ignore", .flag fun a => { a with noIgnore := false }),
   ("no-ignore-dot", .flag fun a => { a with noIgnoreDot := true }),
   ("ignore-dot", .flag fun a => { a with noIgnoreDot := false }),
   ("no-ignore-exclude", .flag fun a => { a with noIgnoreExclude := true }),
   ("ignore-exclude", .flag fun a => { a with noIgnoreExclude := false }),
   ("no-ignore-files", .flag fun a => { a with noIgnoreFiles := true }),
   ("ignore-files", .flag fun a => { a with noIgnoreFiles := false }),
   ("no-ignore-global", .flag fun a => { a with noIgnoreGlobal := true }),
   ("ignore-global", .flag fun a => { a with noIgnoreGlobal := false }),
   ("no-ignore-messages", .flag fun a => { a with noIgnoreMessages := true }),
   ("ignore-messages", .flag fun a => { a with noIgnoreMessages := false }),
   ("no-ignore-parent", .flag fun a => { a with noIgnoreParent := true }),
   ("ignore-parent", .flag fun a => { a with noIgnoreParent := false }),
   ("no-ignore-vcs", .flag fun a => { a with noIgnoreVcs := true }),
   ("ignore-vcs", .flag fun a => { a with noIgnoreVcs := false }),
   ("no-messages", .flag fun a => { a with noMessages := true }),
   ("messages", .flag fun a => { a with noMessages := false }),
   ("no-require-git", .flag fun a => { a with noRequireGit := true }),
   ("require-git", .flag fun a => { a with noRequireGit := false }),
   ("no-unicode", .flag fun a => { a with popt := { a.popt with unicode := false } }),
   ("unicode", .flag fun a => { a with popt := { a.popt with unicode := true } }),
   ("null", .flag fun a => { a with nullOut := true }),
   ("no-null", .flag fun a => { a with nullOut := false }),
   ("null-data", .flag fun a => { a with nullData := true, text := true, popt := { a.popt with crlf := false } }),
   ("no-null-data", .flag fun a => { a with nullData := false }),
   ("one-file-system", .flag fun a => { a with oneFileSystem := true }),
   ("no-one-file-system", .flag fun a => { a with oneFileSystem := false }),
   ("only-matching", .flag fun a => { a with onlyMatching := true }),
   ("no-only-matching", .flag fun a => { a with onlyMatching := false }),
   ("path-separator", text fun a v => { a with pathSep := v }),
   ("passthru", .flag fun a => { a with passthru := true, contextSeen := false }),
   ("no-passthru", .flag fun a => { a with passthru := false }),
   ("pcre2", .flag fun a => { a with engine := ascii "pcre2", popt := { a.popt with engine := .pcre2Compat } }),
   ("no-pcre2", .flag fun a => { a with engine := ascii "default", popt := { a.popt with engine := .default_ } }),
   ("pcre2-version", .flag fun a => { a with pcre2Version := true }),
   ("pre", text fun a v => { a with pre := v }),
   ("pre-glob", text fun a v => { a with preGlobs := a.preGlobs ++ [v] }),
   ("pretty", .flag fun a => { a with pretty := true, color := ascii "always", heading := true, lineNumber := true }),
   ("quiet", .flag fun a => { a with quiet := true }),
   ("no-quiet", .flag fun a => { a with quiet := false }),
   ("regex-size-limit", text fun a _ => a),
   ("regexp", text fun a v => { a with patterns := a.patterns ++ [v] }),
   ("file", text fun a v => { a with patternFiles := a.patternFiles ++ [v] }),
   ("replace", text fun a v => { a with replacement := v }),
   ("search-zip", .flag fun a => { a with searchZip := true }),
   ("no-search-zip", .flag fun a => { a with searchZip := false }),
   ("smart-case", .flag fun a => { a with popt := { a.popt with caseMode := .smart } }),
   ("no-smart-case", .flag fun a => { a with popt := { a.popt with caseMode := .sensitive } }),
   ("sort", text fun a v => { a with sort := v }),
   ("sortr", text fun a v => { a with sort := ascii "reverse:" ++ v }),
   ("stats", .flag fun a => { a with stats := true }),
   ("no-stats", .flag fun a => { a with stats := false }),
   ("stop-on-nonmatch", .flag fun a => { a with stopOnNonmatch := true, popt := { a.popt with multiline := false } }),
   ("no-stop-on-nonmatch", .flag fun a => { a with stopOnNonmatch := false }),
   ("text", .flag fun a => { a with text := true }),
   ("no-text", .flag fun a => { a with text := false }),
   ("threads", int fun a n => { a with threads := n }),
   ("trace", .flag fun a => { a with trace := true }),
   ("trim", .flag fun a => { a with trim := true }),
   ("no-trim", .flag fun a => { a with trim := false }),
   ("type", text fun a v => { a with types := a.types ++ [v] }),
   ("type-not", text fun a v => { a with typeNot := a.typeNot ++ [v] }),
   ("type-add", text fun a v => { a with typeAdd := a.typeAdd ++ [v] }),
   ("type-clear", text fun a v => { a with typeClear := a.typeClear ++ [v] }),
   ("type-list", .flag fun a => { a with typeList := true }),
   ("unrestricted", .flag unrestrict),
   ("version", .flag fun a => { a with version := true }),
   ("vimgrep", .flag fun a => { a with vimgrep := true, lineNumber := true, column := true }),
   ("with-filename", .flag fun a => { a with withFilename := true, noFilename := false }),
   ("no-filename", .flag fun a => { a with noFilename := true, withFilename := false }),
   ("word-regexp", .flag fun a => { a with popt := { a.popt with word := true, line := false } }),
   ("no-word-regexp", .flag fun a => { a with popt := { a.popt with word := false } }),
   ("auto-hybrid-regex", .flag fun a => { a with engine := ascii "auto", popt := { a.popt with engine := .auto } }),
   ("no-auto-hybrid-regex", .flag fun a => { a with engine := ascii "default", popt := { a.popt with engine := .default_ } }),
   ("no-pcre2-unicode", .flag fun a => { a with popt := { a.popt with unicode := false } }),
   ("pcre2-unicode", .flag fun a => { a with popt := { a.popt with unicode := true } }),
   ("sort-files", .flag fun a => { a with sort := ascii "path" }),
   ("no-sort-files", .flag fun a => { a with sort := [] })]

def shortOptions : List (Char × Action CommandArgs Bytes) :=
  [('A', int fun a n => { a with after := n, afterExplicit := true, contextSeen := true }),
   ('B', int fun a n => { a with before := n, beforeExplicit := true, contextSeen := true }),
   ('C', int context),
   ('a', .flag fun a => { a with text := true }),
   ('b', .flag fun a => { a with byteOffset := true }),
   ('c', .flag (summary true false false false)),
   ('0', .flag fun a => { a with nullOut := true }),
   ('d', int fun a n => { a with maxDepth := n }),
   ('E', text fun a v => { a with encoding := v }),
   ('e', text fun a v => { a with patterns := a.patterns ++ [v] }),
   ('f', text fun a v => { a with patternFiles := a.patternFiles ++ [v] }),
   ('F', .flag fun a => { a with popt := { a.popt with kind := .fixed } }),
   ('g', text fun a v => { a with globs := a.globs ++ [v] }),
   ('h', .flag fun a => { a with shortHelp := true }),
   ('H', .flag fun a => { a with withFilename := true, noFilename := false }),
   ('I', .flag fun a => { a with noFilename := true, withFilename := false }),
   ('i', .flag fun a => { a with popt := { a.popt with caseMode := .insensitive } }),
   ('j', int fun a n => { a with threads := n }),
   ('l', .flag (summary false false true false)),
   ('L', .flag fun a => { a with follow := true }),
   ('m', number fun a n => { a with maxCount := n, maxCountSet := true }),
   ('M', int fun a n => { a with maxColumns := n }),
   ('n', .flag fun a => { a with lineNumber := true }),
   ('N', .flag fun a => { a with lineNumber := false }),
   ('o', .flag fun a => { a with onlyMatching := true }),
   ('p', .flag fun a => { a with pretty := true, color := ascii "always", heading := true, lineNumber := true }),
   ('P', .flag fun a => { a with engine := ascii "pcre2", popt := { a.popt with engine := .pcre2Compat } }),
   ('q', .flag fun a => { a with quiet := true }),
   ('r', text fun a v => { a with replacement := v }),
   ('s', .flag fun a => { a with popt := { a.popt with caseMode := .sensitive } }),
   ('S', .flag fun a => { a with popt := { a.popt with caseMode := .smart } }),
   ('t', text fun a v => { a with types := a.types ++ [v] }),
   ('T', text fun a v => { a with typeNot := a.typeNot ++ [v] }),
   ('u', .flag unrestrict),
   ('U', .flag fun a => { a with stopOnNonmatch := false, popt := { a.popt with multiline := true } }),
   ('v', .flag fun a => { a with sopt := { a.sopt with invertMatch := true } }),
   ('V', .flag fun a => { a with version := true }),
   ('w', .flag fun a => { a with popt := { a.popt with word := true, line := false } }),
   ('x', .flag fun a => { a with popt := { a.popt with line := true, word := false } }),
   ('z', .flag fun a => { a with searchZip := true })]

def operand (a : CommandArgs) (x : Bytes) : CommandArgs :=
  if a.filesMode then { a with paths := a.paths ++ [x] }
  else if a.patterns = [] ∧ a.patternFiles = [] then { a with patterns := a.patterns ++ [x] }
  else { a with paths := a.paths ++ [x] }

def grammar : Grammar CommandArgs Bytes where
  long n := (longOptions.find? (fun e => ascii e.1 == n)).map Prod.snd
  short c := (shortOptions.find? (fun e => e.1.toNat == c.toNat)).map Prod.snd
  operand := operand
  missing option := ascii "option requires a value: " ++ option
  unknown option := ascii "unrecognized flag " ++ option

/-! ## The command line -/

/-- What the command line is read in. -/
structure Shell where
  /-- The text of a file, where it can be opened. -/
  file : Bytes → Option Bytes
  stdin : Bytes
  /-- `isatty_stdin()` -/
  tty : Bool
  /-- `RIPGREP_CONFIG_PATH`; empty where it is not set. -/
  config : Bytes

/-- The patterns of the pattern files; the standard input is read to its end the first time. -/
def readPatternFiles (sh : Shell) : Bytes → List Bytes → Except Bytes (List Bytes)
  | _, [] => .ok []
  | stdin, pf :: pfs =>
    if pf = [45] then do
      let others ← readPatternFiles sh [] pfs
      return getLines stdin ++ others
    else
      match sh.file pf with
      | none => .error (ascii "cannot open pattern file: " ++ pf)
      | some s => do
        let others ← readPatternFiles sh stdin pfs
        return getLines s ++ others

/-- What `parse` does when the words and the pattern files are read. -/
def settle (sh : Shell) (read : List Bytes) (a : CommandArgs) : CommandArgs :=
  { a with
    patterns := a.patterns ++ read
    passthru := if a.contextSeen then false else a.passthru
    count := if a.onlyMatching && a.count then false else a.count
    countMatches := if a.onlyMatching && a.count then true else a.countMatches
    paths := if a.paths.isEmpty then (if sh.tty then [ascii "."] else [ascii "-"]) else a.paths
    stdinHaystack := if a.paths.isEmpty && !sh.tty then true else a.stdinHaystack
    sopt :=
      { a.sopt with
        includeBinary := a.text || a.binary || decide (3 ≤ a.unrestricted)
        filesWithMatches := if a.filesWith then true else a.sopt.filesWithMatches
        filesWithoutMatch := if a.filesWithout then true else a.sopt.filesWithoutMatch } }

def parse (sh : Shell) (argv : List Bytes) : Except Bytes CommandArgs := do
  let a ← grammar.run {} false argv
  let read ← readPatternFiles sh sh.stdin a.patternFiles
  return settle sh read a

/-- `find_first_not_of(" \t\r")` -/
def isBlank (b : UInt8) : Bool := b == 32 || b == 9 || b == 13

/-- The words of a configuration: a line each, without the blanks around it; `#` starts a comment. -/
def configWords (s : Bytes) : List Bytes :=
  (getLines s).filterMap fun line =>
    let body := (line.dropWhile isBlank).rdropWhile isBlank
    if body = [] ∨ body.head? = some 35 then none else some body

def parseWithConfig (sh : Shell) (argv : List Bytes) : Except Bytes CommandArgs :=
  if argv.any (· == ascii "--no-config") || sh.config.isEmpty then parse sh argv
  else
    match sh.file sh.config with
    | none => .error (ascii "could not read RIPGREP_CONFIG_PATH: " ++ sh.config)
    | some s => parse sh (configWords s ++ argv)

end Pergrep.Cli
