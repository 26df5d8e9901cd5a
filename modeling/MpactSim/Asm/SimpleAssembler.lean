import MpactSim.Asm.Text

namespace MpactSim.Asm

/-!
# The assembler

`SimpleAssembler` reads a source twice.  `parse` counts: it keeps an address for every
section, puts the labels into the symbol table and saves the statements.  The second pass,
`parsePassTwo`, reads the saved statements again and appends their bytes to the sections;
`createExecutable` and `createRelocatable` set it up and run it.

The target assembler is a parameter.  A call of its `Encode` talks to the assembler while
it runs, so it is a tree of questions (`Encoding`) that `Encoding.perform` answers.
-/

/-- The sections; all three are created by the constructor. -/
inductive Section where
  | text | data | bss
  deriving DecidableEq, Repr

/-- The name of a section. -/
def Section.name : Section → Text
  | .text => '.' :: Keyword.text.name
  | .data => '.' :: Keyword.data.name
  | .bss => '.' :: Keyword.bss.name

/-- The ELF file class that the constructor is given. -/
inductive ElfClass where
  | class32 | class64 | unsupported
  deriving DecidableEq, Repr

/-- A value as the symbol table of a class holds it. -/
def ElfClass.truncate : ElfClass → UInt64 → UInt64
  | .class32, value => value &&& 0xffffffff
  | _, value => value

/-- An entry of the symbol table. -/
structure Symbol where
  name : Text
  value : UInt64
  size : UInt64
  type : UInt8
  binding : UInt8
  other : UInt8
  section_ : Option Section
  deriving DecidableEq, Repr

/-- `STT_NOTYPE`, `STB_LOCAL` and `STB_GLOBAL`, `STT_SECTION` -/
def sttNotype : UInt8 := 0
def stbLocal : UInt8 := 0
def stbGlobal : UInt8 := 1
def sttSection : UInt8 := 3

/-- `RelocationInfo`.  The section is that of the statement. -/
structure RelocationInfo where
  offset : UInt64
  symbol : Text
  type : UInt32
  addend : UInt64
  section_ : Option Section
  deriving DecidableEq, Repr

/-! ### The target assembler and the resolvers -/

/-- A call of `Encode`: it resolves symbols, adds symbols, and ends with the increment of
    the address or an error, and with what it has appended to the two vectors. -/
inductive Encoding where
  | done (result : Except Error UInt64) (bytes : List UInt8)
      (relocations : List RelocationInfo)
  | resolve (name : Text) (next : Except Error UInt64 → Encoding)
  | addSymbol (name : Text) (value size : UInt64) (type binding other : UInt8)
      (next : Except Error Unit → Encoding)

/-- What an assembler is created with. -/
structure Config where
  /-- `RE2::FullMatch` against `comment_re_`, which is built from the caller's expression. -/
  commentRe : Text → Option (Text × Text)
  elfFileClass : ElfClass
  encode : UInt64 → Text → Encoding
  dataAddressUnit : UInt64
  dataSegmentStart : UInt64

/-- A resolver: one of the two defaults, or one that the caller supplies. -/
inductive Resolver where
  | zero
  | symbol
  | supplied (resolve : Text → Except Error UInt64)

/-- The state of an assembler.  `none` is the null section. -/
structure State where
  currentSection : Option Section
  sectionAddress : Option Section → UInt64
  symtab : List Symbol
  undefinedSymbols : List Text
  globalSymbols : List Text
  lines : List Text
  contents : Section → List UInt8
  bssSize : UInt64

namespace State

/-- The symbol of a name. -/
def lookup (s : State) (name : Text) : Option Symbol := s.symtab.find? (·.name = name)

/-- The state after the constructor: the symbols of the sections, and no section. -/
def initial : State where
  currentSection := none
  sectionAddress _ := 0
  symtab := [.text, .data, .bss].map fun sec =>
    ⟨sec.name, 0, 0, sttSection, stbLocal, 0, some sec⟩
  undefinedSymbols := []
  globalSymbols := []
  lines := []
  contents _ := []
  bssSize := 0

/-- `section_address_map_[section] += size` -/
def advance (s : State) (sec : Option Section) (size : UInt64) : State :=
  { s with sectionAddress := Function.update s.sectionAddress sec (s.sectionAddress sec + size) }

/-- `AddSymbol`. -/
def addSymbol (cfg : Config) (s : State) (name : Text) (value size : UInt64)
    (type binding other : UInt8) (sec : Option Section) : State × Except Error Unit :=
  match s.lookup name with
  | some _ =>
    (s, .error ⟨.alreadyExists, "Symbol '" ++ String.ofList name ++ "' already exists"⟩)
  | none =>
    ({ s with
        symtab := s.symtab ++
          [⟨name, cfg.elfFileClass.truncate value, size, type, binding, other, sec⟩]
        undefinedSymbols :=
          if sec = none then s.undefinedSymbols else s.undefinedSymbols.erase name }, .ok ())

/-- `SimpleAddSymbol`. -/
def simpleAddSymbol (s : State) (name : Text) : State :=
  if (s.lookup name).isSome ∨ name ∈ s.undefinedSymbols then s
  else { s with undefinedSymbols := s.undefinedSymbols ++ [name] }

end State

/-- `Resolve` of a resolver.  The default one of the first pass takes a note of the name;
    that of the second reads the symbol table. -/
def Resolver.resolve (s : State) (name : Text) : Resolver → State × Except Error UInt64
  | .zero => (s.simpleAddSymbol name, .ok 0)
  | .symbol =>
    match s.lookup name with
    | some sym => (s, .ok sym.value)
    | none => (s, .error (invalid "SymbolResolver: Symbol '" (name ++ "' not found".toList)))
  | .supplied resolve => (s, resolve name)

/-- What a call leaves behind: the state, its status, and the bytes and relocations. -/
structure Outcome (α : Type) where
  state : State
  status : Except Error α
  bytes : List UInt8
  relocations : List RelocationInfo

/-- A call of `Encode` against the assembler's state and a resolver. -/
def Encoding.perform (cfg : Config) (resolver : Resolver) (s : State) :
    Encoding → Outcome UInt64
  | .done result bytes relocations => ⟨s, result, bytes, relocations⟩
  | .resolve name next =>
    let (s', answer) := resolver.resolve s name
    (next answer).perform cfg resolver s'
  | .addSymbol name value size type binding other next =>
    let (s', answer) := s.addSymbol cfg name value size type binding other s.currentSection
    (next answer).perform cfg resolver s'

/-! ### Directives and statements -/

/-- What a directive asks for: padding, another section, bytes, global names or space. -/
inductive Directive where
  | align (padding : UInt64)
  | switch (sec : Section)
  | emit (bytes : List UInt8)
  | global (names : List Text)
  | space (size : UInt64)
  deriving DecidableEq, Repr

/-- The data directives that hold integers of one type. -/
def integers (signed : Bool) (size : Nat) (remainder : Text) : Except Error Directive :=
  (getValues signed size remainder).map fun values => .emit (convertToBytes size values)

/-- `.align`.  The padding is counted from the address of the section; an alignment of 0
    passes the test for a power of two. -/
def readAlign (s : State) (directive remainder : Text) : Except Error Directive :=
  if s.currentSection = none then
    .error (invalid "No section for directive: '" (directive ++ ['\'']))
  else do
    let value ← simpleTextToInt false 64 remainder
    let align : UInt64 := .ofNat value.toNat
    if align &&& (align - 1) ≠ 0 then
      .error (invalid "Invalid alignment: '" (directive ++ ['\'']))
    else
      let address := s.sectionAddress s.currentSection
      .ok (.align (((address + align - 1) &&& ~~~(align - 1)) - address))

/-- The branches of `ParseAsmDirective`. -/
def readDirective (s : State) (directive : Text) (keyword : Keyword) (remainder : Text) :
    Except Error Directive :=
  match keyword with
  | .align => readAlign s directive remainder
  | .bss => .ok (.switch .bss)
  | .bytes => integers false 1 remainder
  | .char => (getChars remainder).map .emit
  | .cstring => .ok (.emit ((getStrings remainder).flatMap fun value => value ++ [0]))
  | .data => .ok (.switch .data)
  | .global => .ok (.global (getLabels remainder))
  | .long => integers true 8 remainder
  | .sect => .error ⟨.unimplemented, "Section directive not implemented"⟩
  | .short => integers true 2 remainder
  | .space => (simpleTextToInt false 64 remainder).map fun value =>
      .space (.ofNat value.toNat)
  | .string => .ok (.emit (getStrings remainder).flatten)
  | .type => .error (invalid "Unsupported directive: '" (directive ++ ['\'']))
  | .text => .ok (.switch .text)
  | .uchar => integers false 1 remainder
  | .ulong => integers false 8 remainder
  | .ushort => integers false 2 remainder
  | .uword => integers false 4 remainder
  | .word => integers true 4 remainder

namespace Directive

/-- The bytes a directive pushes. -/
def bytes : Directive → List UInt8
  | .emit bytes => bytes
  | _ => []

/-- The local variable `size` of `ParseAsmDirective`. -/
def size : Directive → UInt64
  | .align padding => padding
  | .switch _ => 0
  | .emit bytes => .ofNat bytes.length
  | .global _ => 0
  | .space size => size

/-- The section that is current after a directive. -/
def after (current : Option Section) : Directive → Option Section
  | .switch sec => some sec
  | _ => current

/-- The names that a directive declares global. -/
def globals : Directive → List Text
  | .global names => names
  | _ => []

/-- The state after a directive, the label aside: the size counts for the section that was
    current before it. -/
def apply (s : State) (d : Directive) : State :=
  let s' := { s with
    currentSection := d.after s.currentSection
    globalSymbols := s.globalSymbols ++ d.globals }
  if s.currentSection = none then s' else s'.advance s.currentSection d.size

end Directive

/-- `ParseAsmDirective`.  The status of the `AddSymbol` for the label is dropped. -/
def parseAsmDirective (cfg : Config) (s : State) (line : Text) (address : UInt64) :
    Outcome Unit :=
  match asmLine line with
  | none => ⟨s, .error (invalid "Invalid assembly line: '" (line ++ ['\''])), [], []⟩
  | some (label, directive) =>
    match directiveLine directive with
    | none => ⟨s, .error (invalid "Invalid directive: '" (directive ++ ['\''])), [], []⟩
    | some (keyword, remainder) =>
      match readDirective s directive keyword remainder with
      | .error e => ⟨s, .error e, [], []⟩
      | .ok d =>
        if label = [] then ⟨d.apply s, .ok (), d.bytes, []⟩
        else if s.currentSection = none then
          ⟨d.apply s, .error (invalid "Label: '" (label ++ "' defined outside of a section".toList)),
            d.bytes, []⟩
        else
          let added := (d.apply s).addSymbol cfg label address d.size sttNotype stbLocal 0
            s.currentSection
          ⟨added.1, .ok (), d.bytes, []⟩

/-- `ParseAsmStatement`. -/
def parseAsmStatement (cfg : Config) (resolver : Resolver) (s : State) (line : Text)
    (address : UInt64) : Outcome Unit :=
  let out := (cfg.encode address line).perform cfg resolver s
  match out.status with
  | .error e => ⟨out.state, .error e, out.bytes, out.relocations⟩
  | .ok size =>
    ⟨out.state.advance out.state.currentSection size, .ok (), out.bytes, out.relocations⟩

/-- The test on the first character that sends a line to one of the two. -/
def parseText (cfg : Config) (resolver : Resolver) (s : State) (statement line : Text)
    (address : UInt64) : Outcome Unit :=
  if statement.head? = some '.' then parseAsmDirective cfg s line address
  else parseAsmStatement cfg resolver s line address

/-! ### The first pass -/

/-- The value of a label that stands alone on its line. -/
def labelAddress (cfg : Config) (s : State) (address : UInt64) : UInt64 :=
  if s.currentSection = some .data ∨ s.currentSection = some .bss then
    address / cfg.dataAddressUnit
  else address

/-- The body of the loop of `Parse`, once a line has been read. -/
def parseLine (cfg : Config) (resolver : Resolver) (s : State) (line : Text) :
    Except Error State :=
  if line = [] then .ok s
  else
    match asmLine line with
    | none => .error ⟨.aborted, "Parse failure: '" ++ String.ofList line ++ "'"⟩
    | some (label, statement) =>
      let address := if s.currentSection = none then 0 else s.sectionAddress s.currentSection
      if statement ≠ [] then
        let out := parseText cfg resolver s statement line address
        match out.status with
        | .error e => .error e
        | .ok () => .ok { out.state with lines := out.state.lines ++ [statement] }
      else if label ≠ [] then
        let added := s.addSymbol cfg label (labelAddress cfg s address) 0 sttNotype 0 0
          s.currentSection
        match added.2 with
        | .error e => .error e
        | .ok () => .ok added.1
      else .ok s

/-- The loop of `Parse` over the lines of the stream; `pending` is what escaped newlines
    have joined so far. -/
def parseLines (cfg : Config) (resolver : Resolver) :
    Text → State → List Text → Except Error State
  | pending, s, [] => parseLine cfg resolver s pending
  | pending, s, tmp :: rest =>
    match cfg.commentRe tmp with
    | none => .error ⟨.internal, "Failed to parse comment"⟩
    | some (code, suffix) =>
      if (code ++ suffix).getLast? = some '\\' then
        parseLines cfg resolver (pending ++ (code ++ suffix) ++ ['\n']) s rest
      else
        match parseLine cfg resolver s (pending ++ (code ++ suffix)) with
        | .error e => .error e
        | .ok s' => parseLines cfg resolver [] s' rest

/-- The undefined symbols go into the symbol table. -/
def addUndefinedSymbols (cfg : Config) : State → List Text → Except Error State
  | s, [] => .ok s
  | s, name :: rest =>
    match s.addSymbol cfg name 0 0 sttNotype 0 0 none with
    | (_, .error e) => .error ⟨.internal, "Failed to add undefined symbol '" ++
        String.ofList name ++ "': " ++ e.message⟩
    | (s', .ok ()) => addUndefinedSymbols cfg s' rest

/-- The resolver of the first pass. -/
def zeroResolver : Option (Text → Except Error UInt64) → Resolver
  | none => .zero
  | some resolve => .supplied resolve

/-- `Parse`. -/
def parse (cfg : Config) (resolver : Option (Text → Except Error UInt64)) (source : List Text)
    (s : State) : Except Error State := do
  let s ← parseLines cfg (zeroResolver resolver) [] s source
  let s ← addUndefinedSymbols cfg s s.undefinedSymbols
  .ok { s with undefinedSymbols := [], bssSize := s.sectionAddress (some .bss) }

/-! ### The second pass -/

/-- The body of the loop of `ParsePassTwo`.  The status of the line is dropped.  There is
    no value if a relocation is noted for the null section, whose index the source reads. -/
def parsePassTwoLine (cfg : Config) (resolver : Resolver)
    (p : State × List RelocationInfo) (line : Text) :
    Except (Option Error) (State × List RelocationInfo) :=
  let s := p.1
  let address := s.sectionAddress s.currentSection
  let out := parseText cfg resolver s line line address
  let noted := out.relocations.map fun relocation =>
    { relocation with section_ := s.currentSection, offset := address }
  match s.currentSection with
  | none =>
    if noted ≠ [] then .error none
    else if out.bytes = [] then .ok (out.state, p.2)
    else .error (some ⟨.internal, "Data is added to a null section"⟩)
  | some sec =>
    let contents :=
      if sec = .bss then out.state.contents
      else Function.update out.state.contents sec (out.state.contents sec ++ out.bytes)
    .ok ({ out.state with contents := contents }, p.2 ++ noted)

/-- `ParsePassTwo`. -/
def parsePassTwo (cfg : Config) (resolver : Resolver) (s : State) :
    Except (Option Error) (State × List RelocationInfo) :=
  s.lines.foldlM (parsePassTwoLine cfg resolver) (s, [])

/-- The resolver of the second pass. -/
def symbolResolver : Option (Text → Except Error UInt64) → Resolver
  | none => .symbol
  | some resolve => .supplied resolve

/-- The addresses at which the sections of an executable start. -/
def segmentStart (cfg : Config) (s : State) (baseAddress : UInt64) : Section → UInt64 :=
  let text := baseAddress &&& ~~~4095
  let data :=
    if cfg.dataSegmentStart ≠ 0 then cfg.dataSegmentStart
    else (text + s.sectionAddress (some .text) + 4095) &&& ~~~4095
  let bssAlign : UInt64 := 0x10 - 1
  let bss := (data + s.sectionAddress (some .data) + bssAlign) &&& ~~~bssAlign
  fun
    | .text => text
    | .data => data
    | .bss => bss

/-- One entry of `UpdateSymbolsForExecutable`; with starts that are 0 it is one of
    `UpdateSymbolsForRelocatable`. -/
def updateSymbol (cfg : Config) (globals : List Text) (start : Section → UInt64) (sym : Symbol) :
    Symbol :=
  { sym with
    binding := if sym.name ∈ globals then stbGlobal else sym.binding
    value := match sym.section_ with
      | some sec => cfg.elfFileClass.truncate (sym.value + start sec)
      | none => sym.value }

/-- The state in which the second pass starts.  The current section stays as it is. -/
def beginPassTwo (cfg : Config) (s : State) (start : Section → UInt64) : State :=
  { s with
    symtab := s.symtab.map (updateSymbol cfg s.globalSymbols start)
    sectionAddress := fun sec => (sec.map start).getD (s.sectionAddress none) }

/-- `CreateExecutable`, with the value of the entry point. -/
def createExecutable (cfg : Config) (s : State) (baseAddress : UInt64) (entryPoint : Text)
    (resolver : Option (Text → Except Error UInt64)) :
    Except (Option Error) (State × UInt64) :=
  if s.undefinedSymbols ≠ [] then
    .error (some (invalid
      "Cannot create executable with the following undefined symbols: "
      (s.undefinedSymbols.flatMap fun symbol => "    ".toList ++ symbol ++ ['\n'])))
  else if cfg.elfFileClass = .unsupported then
    .error (some ⟨.internal, "Unsupported ELF file class"⟩)
  else do
    let resolver := symbolResolver resolver
    let (s, _) ← parsePassTwo cfg resolver (beginPassTwo cfg s (segmentStart cfg s baseAddress))
    match simpleTextToInt false 64 entryPoint, entryPoint with
    | .ok value, _ => .ok (s, .ofNat value.toNat)
    | .error e, '0' :: 'x' :: _ => .error (some e)
    | .error _, _ =>
      match (resolver.resolve s entryPoint).2 with
      | .ok value => .ok (s, value)
      | .error _ => .error (some (invalid "Invalid argument: " entryPoint))

/-- The relocation sections of `CreateRelocatable`: one for each section that has
    relocations, in no particular order; every symbol has to be in the symbol table. -/
def relaSections (s : State) (relocations : List RelocationInfo) :
    Except (Option Error) (List (Option Section × List RelocationInfo)) :=
  match relocations.find? fun relocation => (s.lookup relocation.symbol).isNone with
  | some relocation =>
    .error (some (invalid "Symbol '" (relocation.symbol ++ "' not found".toList)))
  | none =>
    .ok ((relocations.map (·.section_)).dedup.map fun sec =>
      (sec, relocations.filter (·.section_ = sec)))

/-- `CreateRelocatable`, with the relocation sections. -/
def createRelocatable (cfg : Config) (s : State)
    (resolver : Option (Text → Except Error UInt64)) :
    Except (Option Error) (State × List (Option Section × List RelocationInfo)) :=
  if cfg.elfFileClass = .unsupported then
    .error (some ⟨.internal, "Unsupported ELF file class"⟩)
  else do
    let (s, relocations) ←
      parsePassTwo cfg (symbolResolver resolver) (beginPassTwo cfg s fun _ => 0)
    let sections ← relaSections s relocations
    .ok (s, sections)

end MpactSim.Asm
