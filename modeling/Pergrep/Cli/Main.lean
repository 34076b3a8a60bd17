import Pergrep.Cli.Lines
import Pergrep.Index.Chunks
import Pergrep.Lib.PlainText
import Pergrep.Search.Find
/-!
# Main — the search of the command line, up to its exit status

`main` searches each pattern in the files that the walk allows, puts the matches of all patterns on their files
(`byFile`), and takes the files in their order: which lines are selected (`selectedLines`), what a file gives
(`fileStep`), and with what the run ends (`exitLoop`).  A run that dies on the way is an error: of its input, of a
`--type-add`, of a pattern, of a `--sort`.  What is printed is left out but for the lines the last printing mode steps over, as
these decide whether a match is seen.
-/
namespace Pergrep.Cli

open PlainText (ascii)

/-- The fields of `Args` that the search reads. -/
structure Args where
  patterns : List Bytes := []
  popt : PatternOptions := {}
  sopt : SearchOptions := {}
  after : Nat := 0
  before : Nat := 0
  passthru : Bool := false
  binary : Bool := false
  text : Bool := false
  onlyMatching : Bool := false
  count : Bool := false
  countMatches : Bool := false
  filesMode : Bool := false
  filesWith : Bool := false
  filesWithout : Bool := false
  includeZero : Bool := false
  quiet : Bool := false
  vimgrep : Bool := false
  json : Bool := false
  nullData : Bool := false
  stopOnNonmatch : Bool := false
  replacement : Bytes := []
  generate : Bytes := []
  maxCount : Nat := 0
  help : Bool := false
  shortHelp : Bool := false
  version : Bool := false
  typeList : Bool := false
  pcre2Version : Bool := false
  maxCountSet : Bool := false
  unrestricted : Nat := 0
  sort : Bytes := []
  typeAdd : List Bytes := []
  typeClear : List Bytes := []

/-- What the search runs over: the index, the files that are allowed, and their order. -/
structure Corpus where
  index : IndexData
  /-- It was built, or read back from a cache over the tree it was built from. -/
  built : Built index
  /-- `allowed`, a flag for each file. -/
  allowed : List Bool
  allowed_length : allowed.length = index.infos.length
  /-- `order`, as `--sort` has it. -/
  order : List Nat
  order_perm : order.Perm (List.range index.infos.length)
  /-- The file is named by a selector. -/
  explicitFile : Nat → Bool := fun _ => false
  /-- What the input dies of before it is searched: of a path, of an encoding, of `--pre`, of an archive. -/
  input : Eval Unit := .ok ()
  /-- When a file was created; 0 where that is unavailable. -/
  created : Nat → Int := fun _ => 1

def Corpus.allows (c : Corpus) (fid : Nat) : Bool := c.allowed.getD fid false

def Corpus.eligible (c : Corpus) : List Nat := (List.range c.index.infos.length).filter c.allows

/-! ## The matches of the patterns -/

/-- `core_opt` -/
def coreOptions (a : Args) (c : Corpus) : SearchOptions :=
  { a.sopt with
    invertMatch := false, filesWithMatches := false, filesWithoutMatch := false, maxMatches := 0
    objective := if a.quiet && !a.sopt.invertMatch then .firstHit else .exhaustive
    includeBinary := true, recordSeparator := if a.nullData then 0 else 0x0A, eligibleFileIds := c.eligible }

def searches (a : Args) (c : Corpus) : Bool := !c.eligible.isEmpty && !(a.maxCountSet && decide (a.maxCount = 0))

section
variable (icu : Icu) (plan : Planner)

def searchPatterns (a : Args) (c : Corpus) : List Bytes → Eval (List (List Match))
  | [] => .ok []
  | ps :: rest => do
    let p ← Pattern.compile icu ps a.popt
    let ms ← find icu c.index plan p (coreOptions a c)
    let others ← searchPatterns a c rest
    return ms :: others

/-- `perpat` -/
def perPattern (a : Args) (c : Corpus) : Eval (List (List Match)) :=
  if searches a c then searchPatterns icu plan a c a.patterns else .ok []

end

def spanLe (x y : Match) : Prop := if x.start = y.start then x.stop ≤ y.stop else x.start < y.start

instance : DecidableRel spanLe := fun x y =>
  inferInstanceAs (Decidable (if x.start = y.start then x.stop ≤ y.stop else x.start < y.start))

/-- The loop of `unique`, by the span: the last match kept. -/
def uniqueFrom (last : Match) : List Match → List Match
  | [] => []
  | m :: ms => if last.start = m.start ∧ last.stop = m.stop then uniqueFrom last ms else m :: uniqueFrom m ms

def uniqueSpans : List Match → List Match
  | [] => []
  | m :: ms => m :: uniqueFrom m ms

/-- `byfile[fid]` -/
def byFile (c : Corpus) (perpat : List (List Match)) (fid : Nat) : List Match :=
  uniqueSpans ((perpat.flatten.filter (fun m => c.allows m.fileId && m.fileId == fid)).insertionSort spanLe)

/-! ## A file -/

def firstNul (a : Args) (data : Bytes) : Option Nat := if a.nullData then none else data.findIdx? (· == 0)

def asText (a : Args) : Bool := a.text || decide (3 ≤ a.unrestricted)

/-- The offset the matches of a file are cut at: its first NUL, unless it is read as text. -/
def binaryCut (a : Args) (data : Bytes) : Option Nat := if asText a then none else firstNul a data

def searchSuppress (a : Args) (explicitFile : Bool) (data : Bytes) : Bool :=
  (binaryCut a data).isSome && (a.binary || explicitFile)

def autoBinary (a : Args) (explicitFile : Bool) (data : Bytes) : Bool :=
  (binaryCut a data).isSome && !searchSuppress a explicitFile data

def keptMatches (a : Args) (data : Bytes) (ms : List Match) : List Match :=
  match binaryCut a data with
  | none     => ms
  | some nul => ms.filter (fun m => decide (m.start < nul))

def binaryNotice (a : Args) (explicitFile : Bool) (data : Bytes) (ms : List Match) : Bool :=
  match binaryCut a data with
  | none     => false
  | some nul =>
    let hadMatchBeforeNul := ms.any (fun m => decide (m.start < nul))
    let hadMatchAfterNul := ms.any (fun m => !decide (m.start < nul))
    (autoBinary a explicitFile data && hadMatchBeforeNul) ||
      (searchSuppress a explicitFile data && (hadMatchBeforeNul || hadMatchAfterNul))

/-- `--stop-on-nonmatch`: no line after the first one not selected that follows a selected one. -/
def stopAfter : Bool → List Bool → List Bool
  | _, [] => []
  | _, true :: bits => true :: stopAfter true bits
  | true, false :: bits => List.replicate (bits.length + 1) false
  | false, false :: bits => false :: stopAfter false bits

/-- `--max-count`: no line after the first so many. -/
def limitSelected (maxCount : Nat) : Nat → List Bool → List Bool
  | _, [] => []
  | seen, true :: bits =>
    if maxCount ≤ seen then false :: limitSelected maxCount seen bits else true :: limitSelected maxCount (seen + 1) bits
  | seen, false :: bits => false :: limitSelected maxCount seen bits

def matchedLines (a : Args) (lines : List LineRecord) (ms : List Match) : List Bool :=
  (matchesByLine lines ms).map (fun onLine => if a.sopt.invertMatch then onLine.isEmpty else !onLine.isEmpty)

/-- `selected` -/
def selectedLines (a : Args) (lines : List LineRecord) (ms : List Match) : List Bool :=
  let selected := matchedLines a lines ms
  let selected := if a.stopOnNonmatch then stopAfter false selected else selected
  if a.maxCountSet then limitSelected a.maxCount 0 selected else selected

def onSelected (lines : List LineRecord) (selected : List Bool) (m : Match) : Bool :=
  selected.getD (lineForOffset lines m.start) false

/-- The count of `--count` and `--count-matches`. -/
def fileCount (a : Args) (lines : List LineRecord) (selected : List Bool) (ms : List Match) : Nat :=
  if a.countMatches && !a.sopt.invertMatch then
    if a.maxCountSet then ms.countP (onSelected lines selected) else ms.length
  else selected.count true

/-- Whether a line is printed: it is selected, or in the context of one. -/
def emitsLine (a : Args) (selected : List Bool) (j : Nat) : Bool :=
  a.passthru || (List.range selected.length).any (fun i =>
    selected.getD i false && decide (i - a.before ≤ j) && decide (j < i + a.after + 1))

/-- Where the line after the replacement of a line is: a match that ends on a later line takes this with it. -/
def skipAfter (a : Args) (lines : List LineRecord) (ms : List Match) (i skipUntil : Nat) : Nat :=
  if a.replacement.isEmpty || a.sopt.invertMatch then skipUntil
  else
    match lines[i]? with
    | none => skipUntil
    | some line =>
      ms.foldl (fun skipUntil m =>
        if line.begin ≤ m.start ∧ m.start < line.termEnd ∧ line.termEnd < m.stop then
          let lastLi := (matchLines lines m).2
          if i < lastLi then max skipUntil (lastLi + 1) else skipUntil
        else skipUntil) skipUntil

/-- The printing of the lines: whether one of those printed is selected. -/
def printLines (a : Args) (lines : List LineRecord) (selected : List Bool) (ms : List Match) :
    List Nat → Nat → Bool → Bool
  | [], _, any => any
  | i :: rest, skipUntil, any =>
    if i < skipUntil then printLines a lines selected ms rest skipUntil any
    else if !emitsLine a selected i then printLines a lines selected ms rest skipUntil any
    else
      let matchLine := selected.getD i false
      let skipUntil := if matchLine then skipAfter a lines ms i skipUntil else skipUntil
      printLines a lines selected ms rest skipUntil (any || matchLine)

/-- What a file of the loop gives: `none` where `main` returns 0 at once, else what it adds to `any`. -/
def fileStep (a : Args) (explicitFile : Bool) (data : Bytes) (found : List Match) : Option Bool :=
  let ms := keptMatches a data found
  let binaryNotice := binaryNotice a explicitFile data found
  let lines := splitLines data (if a.nullData then 0 else 0x0A)
  let selected := selectedLines a lines ms
  let hit := decide (selected.count true ≠ 0)
  if a.filesWith || a.filesWithout then
    let emit := if a.filesWith then hit else !hit
    if emit then (if a.quiet then none else some true) else some false
  else if a.quiet && hit then none
  else if a.count || a.countMatches then some (decide (0 < fileCount a lines selected ms))
  else if !hit && !a.passthru && decide (a.after = 0) && decide (a.before = 0) && !a.json then
    some (binaryNotice && searchSuppress a explicitFile data)
  else if a.json then some hit
  else if a.onlyMatching then some (hit || (!a.sopt.invertMatch && ms.any (onSelected lines selected)))
  else if a.vimgrep then some (!a.sopt.invertMatch && ms.any (onSelected lines selected))
  else some (printLines a lines selected ms (List.range lines.length) 0 false || binaryNotice)

/-! ## The run -/

def exitLoop (a : Args) (c : Corpus) (perpat : List (List Match)) : List Nat → Bool → Nat
  | [], any => if any then 0 else 1
  | fid :: fids, any =>
    if !c.allows fid then exitLoop a c perpat fids any
    else
      match fileStep a (c.explicitFile fid) (c.index.data fid) (byFile c perpat fid) with
      | none   => 0
      | some b => exitLoop a c perpat fids (any || b)

/-! ## What a run dies of -/

def defaultTypes : List Bytes :=
  (ascii ("ada agda aidl alire amake asciidoc asm asp ats avro awk bat batch bazel bitbake boxlang brotli buildstream " ++
    "bzip2 c cabal candid carp cbor ceylon clojure cmake cmd cml coffeescript config coq cpp creole crystal cs " ++
    "csharp cshtml csproj css csv cuda cython d dart devicetree dhall diff dita docker dockercompose dts dvc " ++
    "ebuild edn elisp elixir elm erb erlang fennel fidl fish flatbuffers fortran fsharp fut gap gleam gn go " ++
    "gprbuild gradle graphql groovy gzip h haml hare haskell hbs hs html hurl hy idris janet java jinja jl js " ++
    "json jsonl julia jupyter k kotlin lean less license lilypond lisp lock log lua lz4 lzma m4 make mako man " ++
    "markdown matlab md meson minified mint mk ml mojo motoko msbuild nim nix objc objcpp ocaml org pants pascal " ++
    "pdf perl php po pod postscript prolog protobuf ps puppet purs py python qmake qml r racket raku rdoc readme " ++
    "reasonml red rescript robot rocq rst ruby rust sass scala scdoc sh slim smarty sml solidity soy spark spec " ++
    "sql stylus sv svelte svg swift swig systemd taskpaper tcl tex texinfo textile tf thrift toml ts twig txt " ++
    "typescript typoscript typst usd v vala vb vcl verilog vhdl vim vimscript vue webidl wgsl wiki xml xz yacc " ++
    "yaml yang z zig zsh zstd")).splitOn 0x20

/-- The types a `--type-add` takes over. -/
def includeTypes (name : Bytes) : List Bytes → List Bytes → Eval (List Bytes)
  | names, [] => .ok names
  | names, source :: sources =>
    if names.contains source then includeTypes name (name :: names) sources
    else .error ("unknown file type in include: " ++ bytesText source)

def addType (names : List Bytes) (spec : Bytes) : Eval (List Bytes) :=
  let name := spec.takeWhile (· != 0x3A)
  let rule := (spec.dropWhile (· != 0x3A)).tail
  if !spec.contains 0x3A || name.isEmpty then .error ("invalid --type-add specification: " ++ bytesText spec)
  else if (ascii "include:").isPrefixOf rule then includeTypes name names ((rule.drop 8).splitOn 0x2C)
  else .ok (name :: names)

def addTypes : List Bytes → List Bytes → Eval (List Bytes)
  | names, [] => .ok names
  | names, spec :: specs => do
    let names ← addType names spec
    addTypes names specs

/-- `effective_type_map`: the names of the types. -/
def effectiveTypes (a : Args) : Eval (List Bytes) := addTypes (a.typeClear ++ defaultTypes) a.typeAdd

/-- `kind`, of `--sort`. -/
def sortKind (a : Args) : Bytes :=
  let kind := if (ascii "reverse:").isPrefixOf a.sort then a.sort.drop 8 else a.sort
  if kind == ascii "path:reverse" then ascii "path" else kind

/-- What the sorting of the files dies of.  A time is looked at when there is another file to compare it with. -/
def sortFiles (a : Args) (c : Corpus) : Eval Unit :=
  let kind := sortKind a
  if a.sort.isEmpty || [ascii "path", ascii "modified", ascii "accessed"].contains kind then .ok ()
  else if kind == ascii "created" then
    if decide (2 ≤ c.index.infos.length) && (List.range c.index.infos.length).any (fun fid => c.created fid == 0) then
      .error "creation time unavailable"
    else .ok ()
  else .error ("invalid sort kind: " ++ bytesText kind)

/-- The targets of `--generate`. -/
def generateTargets : List String := ["man", "complete-bash", "complete-zsh", "complete-fish", "complete-powershell"]

def main (icu : Icu) (plan : Planner) (a : Args) (c : Corpus) : Eval Nat :=
  if a.help || a.shortHelp || a.version || a.pcre2Version then .ok 0
  else if !a.generate.isEmpty then
    if generateTargets.any (fun t => t.toUTF8.data.toList == a.generate) then .ok 0
    else .error "unsupported --generate target"
  else if a.typeList then (effectiveTypes a).map (fun names => if names.isEmpty then 1 else 0)
  else if a.patterns.isEmpty && !a.filesMode then .error "a pattern is required"
  else do
    c.input
    let _ ← effectiveTypes a
    if a.filesMode then return 0
    let perpat ← perPattern icu plan a c
    sortFiles a c
    if a.json && (a.filesMode || a.filesWith || a.filesWithout || a.count || a.countMatches) then
      throw "--json cannot be combined with file/count summary output modes"
    return exitLoop a c perpat c.order false

end Pergrep.Cli
