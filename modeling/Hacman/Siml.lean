import Hacman.Config
import Hacman.Pull

/-!
# The SIML parser

The vendored pull parser, from the bytes of a buffer to the events `hmConfigParse`
switches over. A physical line is there or it is not, and what a mode needs is carried
by the mode; `item_count`, the container keys (always empty) and the texts of comments
are left out, because nothing reads them. A scalar is given by its bytes, a block line by
its place in the buffer.
-/

namespace Hacman.Siml
open Octets Util Config

def SIML_MAX_KEY_LEN : Nat := 128
def SIML_MAX_NESTING : Nat := 32
def SIML_MAX_LINE_LEN : Nat := 4608
def SIML_MAX_INLINE_VALUE_LEN : Nat := 2048
def SIML_MAX_FLOW_ELEMENT_LEN : Nat := 128
def SIML_MAX_COMMENT_TEXT_LEN : Nat := 512
def SIML_MAX_SHEBANG_TEXT_LEN : Nat := 512
def SIML_MAX_INLINE_COMMENT_TEXT_LEN : Nat := 256
def SIML_MAX_INLINE_COMMENT_SPACES : Nat := 255
def SIML_MAX_BLOCK_LINE_LEN : Nat := 4096

def HASH : UInt8 := 35
def COMMA : UInt8 := 44
def DASH : UInt8 := 45
def BRACKET_OPEN : UInt8 := 91
def BRACKET_CLOSE : UInt8 := 93
def PIPE : UInt8 := 124

inductive ErrorCode
  | utf8Bom | finalLineNoLf | crlf | cr | lineTooLong
  | shebangEmpty | shebangPosition | shebangTooLong
  | blankLine | whitespaceOnly | tabs | trailingSpaces | unknownLineForm
  | separatorFormat | separatorIndent | separatorInlineComment | separatorBeforeDoc
  | separatorAfterDoc | docIndent | docScalar
  | indentMultiple | indentWrong (expected : Nat) | indentNestMismatch (expected got : Nat)
  | nodeKindMix (indent : Nat)
  | keyIllegal | keyTooLong | expectSpaceAfterColon | headerMapNoNested
  | expectSpaceAfterDash | seqItemRequiresInline
  | emptyComment | commentIndent | commentTooLong
  | inlineCommentAlign | inlineCommentSpace | inlineCommentTooLong
  | inlineValueEmpty | inlineValueTooLong | scalarStartsWithPipe | scalarStartsWithHash
  | flowUnterminated | flowUnterminatedSameLine | flowExcessTerm | flowWhitespace
  | flowEmptyElem | flowTrailingComma | flowAtomTooLong | flowScalarStartsWithPipe
  | flowScalarStartsWithHash
  | blockEmpty | blockLeadingBlank | blockTrailingBlank | blockLineTooLong | blockWhitespaceOnly
  deriving DecidableEq, Repr

def simlAppendUlong (n : Nat) : Bytes := (revDigits 32 n).reverse

def ErrorCode.message : ErrorCode → Bytes
  | .utf8Bom => ascii "UTF-8 BOM is forbidden"
  | .finalLineNoLf => ascii "final line without LF"
  | .crlf => ascii "CRLF is forbidden (\\r\\n found)"
  | .cr => ascii "CR is forbidden (\\r found)"
  | .lineTooLong => ascii "physical line too long (max 4608 bytes)"
  | .shebangEmpty => ascii "shebang must not be empty"
  | .shebangPosition =>
    ascii "shebang is only allowed on the first physical line at byte offset 0"
  | .shebangTooLong => ascii "shebang text too long (max 512 bytes)"
  | .blankLine => ascii "blank lines are not allowed here"
  | .whitespaceOnly => ascii "whitespace-only lines are not allowed here"
  | .tabs => ascii "tabs are not allowed here"
  | .trailingSpaces => ascii "trailing spaces are not allowed here"
  | .unknownLineForm => ascii "unknown line form"
  | .separatorFormat => ascii "document separator must be exactly ---"
  | .separatorIndent => ascii "document separator must be at indent 0"
  | .separatorInlineComment => ascii "document separator must not have inline comments"
  | .separatorBeforeDoc =>
    ascii "document separator must not appear before the first document"
  | .separatorAfterDoc => ascii "document separator must not appear after the last document"
  | .docIndent => ascii "document must start at indent 0"
  | .docScalar => ascii "document root must not be a scalar"
  | .indentMultiple => ascii "indentation must be a multiple of 2 spaces"
  | .indentWrong expected => ascii "wrong indentation, expected: " ++ simlAppendUlong expected
  | .indentNestMismatch expected got =>
    ascii "nested node indentation mismatch, expected " ++ simlAppendUlong expected ++
      ascii " got " ++ simlAppendUlong got
  | .nodeKindMix indent =>
    ascii "node kind mixing at indent " ++ simlAppendUlong indent ++ ascii " is forbidden"
  | .keyIllegal => ascii "illegal mapping key, must match: [a-zA-Z_][a-zA-Z0-9_./-]*"
  | .keyTooLong => ascii "mapping key too long (max 128 bytes)"
  | .expectSpaceAfterColon => ascii "expected single space after ':'"
  | .headerMapNoNested => ascii "header-only mapping entry must have a nested node"
  | .expectSpaceAfterDash => ascii "expected single space after '-'"
  | .seqItemRequiresInline => ascii "sequence item must start after '- '"
  | .emptyComment => ascii "empty comment is forbidden"
  | .commentIndent => ascii "comment indentation must match current nesting level"
  | .commentTooLong => ascii "comment text too long (max 512 bytes)"
  | .inlineCommentAlign => ascii "inline comment alignment out of range (1..255 spaces)"
  | .inlineCommentSpace => ascii "inline comment must have exactly 1 space after '#'"
  | .inlineCommentTooLong => ascii "inline comment text too long (max 256 bytes)"
  | .inlineValueEmpty => ascii "inline value is empty"
  | .inlineValueTooLong => ascii "inline value too long (max 2048 bytes)"
  | .scalarStartsWithPipe => ascii "scalar must not start with '|'"
  | .scalarStartsWithHash => ascii "scalar must not start with '#'"
  | .flowUnterminated => ascii "unterminated flow sequence"
  | .flowUnterminatedSameLine => ascii "unterminated flow sequence on the same line"
  | .flowExcessTerm =>
    ascii "excess non-comment characters after flow sequence termination"
  | .flowWhitespace => ascii "flow sequence contains whitespace (forbidden)"
  | .flowEmptyElem => ascii "empty flow sequence element"
  | .flowTrailingComma => ascii "trailing comma in flow sequence is forbidden"
  | .flowAtomTooLong => ascii "flow-scalar too long (max 128 bytes)"
  | .flowScalarStartsWithPipe => ascii "flow-scalar must not start with '|'"
  | .flowScalarStartsWithHash => ascii "flow-scalar must not start with '#'"
  | .blockEmpty => ascii "block literal must not be empty"
  | .blockLeadingBlank => ascii "block literal has leading blank line (forbidden)"
  | .blockTrailingBlank => ascii "block literal has trailing blank line (forbidden)"
  | .blockLineTooLong => ascii "block literal content line too long (max 4096 bytes)"
  | .blockWhitespaceOnly =>
    ascii "whitespace-only lines are forbidden in block literal content"

section State

/-- The slices `hm_read_line` hands over, one a call: every line with its LF. -/
def rawLines : Bytes → List Bytes
  | [] => []
  | b :: s =>
    if b = LF then [b] :: rawLines s
    else match rawLines s with
      | [] => [[b]]
      | raw :: raws => (b :: raw) :: raws

/-- A physical line without its end, where it starts, and the CR error that it carries. -/
structure PhysLine where
  text : Bytes
  off : Nat
  crCode : Option ErrorCode := none
  deriving DecidableEq, Repr

inductive ContainerType | map | seq
  deriving DecidableEq, Repr

structure Container where
  type : ContainerType
  indent : Nat
  deriving DecidableEq, Repr

/-- A bracketed sequence: the index of its closing bracket and of the next item. -/
structure FlowFrame where
  stop : Nat
  pos : Nat
  started : Bool := false
  deriving DecidableEq, Repr

inductive DocState | idle | before | inside | between
  deriving DecidableEq, Repr

structure BlockScalar where
  key : Bytes
  indent : Nat
  seenContent : Bool := false
  blankCount : Nat := 0
  emitBlanks : Bool := false
  deriving DecidableEq, Repr

inductive Mode
  | normal
  | flow (text : Bytes) (frames : List FlowFrame) (key : Bytes)
  | block (b : BlockScalar)
  deriving DecidableEq, Repr

/-- The parser. The innermost container is the head of the stack. -/
structure Parser where
  input : List Bytes
  off : Nat := 0
  lineNo : Nat := 0
  line : Option PhysLine := none
  docState : DocState := .idle
  mode : Mode := .normal
  stack : List Container := []
  pendingMap : Option Nat := none
  inlineSequenceItem : Option Nat := none
  pendingClose : Option Nat := none
  pendingDocEnd : Bool := false
  pendingDocStart : Bool := false
  pendingContainerStart : Option ContainerType := none
  pendingStreamEnd : Bool := false
  error : Option (Nat × ErrorCode) := none
  deriving DecidableEq, Repr

def start (buf : Bytes) : Parser := { input := rawLines buf }

abbrev Step := Event × Parser

def simlSetError (p : Parser) (code : ErrorCode) : Step :=
  (.error p.lineNo (some code.message), { p with error := some (p.lineNo, code) })

/-- A return of `SIML_EVENT_NONE` to the caller is its default branch. -/
def returned (r : Option Event × Parser) : Step := (r.1.getD (.error 0 none), r.2)

end State

section Lines

def isAlpha (c : UInt8) : Bool := (65 ≤ c && c ≤ 90) || (97 ≤ c && c ≤ 122)

def isKeyStart (c : UInt8) : Bool := isAlpha c || c = 95

def isKeyChar (c : UInt8) : Bool :=
  isAlpha c || isDigit c || c = 95 || c = DASH || c = 46 || c = SLASH

def trimmed (text : Bytes) : Bytes := (text.reverse.dropWhile (· = SPACE)).reverse

def indentOf (text : Bytes) : Nat := (text.takeWhile (· = SPACE)).length

def physLine (raw : Bytes) (off : Nat) : Except ErrorCode PhysLine :=
  if raw.getLast? ≠ some LF then .error .finalLineNoLf
  else
    let text := raw.dropLast
    if text.getLast? = some CR then .ok ⟨text.dropLast, off, some .crlf⟩
    else .ok ⟨text, off, if CR ∈ text then some .cr else none⟩

def Parser.taken (p : Parser) (raw : Bytes) (rest : List Bytes) : Parser :=
  { p with input := rest, off := p.off + raw.length, lineNo := p.lineNo + 1 }

def utf8Bom : Bytes := [239, 187, 191]

def checkLineCommon (lineNo : Nat) (line : PhysLine) : Except ErrorCode Unit :=
  if SIML_MAX_LINE_LEN < line.text.length then .error .lineTooLong
  else if lineNo = 1 ∧ utf8Bom <+: line.text then .error .utf8Bom
  else match line.crCode with
    | some code => .error code
    | none => .ok ()

def checkLineNonblock (lineNo : Nat) (line : PhysLine) : Except ErrorCode Unit :=
  match checkLineCommon lineNo line with
  | .error code => .error code
  | .ok () =>
    if line.text = [] then .error .blankLine
    else if TAB ∈ line.text then .error .tabs
    else if line.text.all (· = SPACE) then .error .whitespaceOnly
    else .ok ()

def countIndent (text : Bytes) : Except ErrorCode Nat :=
  if indentOf text % 2 ≠ 0 then .error .indentMultiple else .ok (indentOf text)

def commentText (rest : Bytes) (cap : Nat) (noSpace tooLong : ErrorCode) : Except ErrorCode Unit :=
  if rest.head? ≠ some SPACE then .error noSpace
  else if rest.length = 1 then .error .emptyComment
  else if cap < rest.length - 1 then .error tooLong
  else .ok ()

def parseCommentLine (text : Bytes) : Except ErrorCode (Nat × Bool) :=
  match countIndent text with
  | .error code => .error code
  | .ok indent =>
    match text.drop indent with
    | [] => .ok (indent, false)
    | b :: rest =>
      if b ≠ HASH then .ok (indent, false)
      else match commentText rest SIML_MAX_COMMENT_TEXT_LEN .emptyComment .commentTooLong with
        | .error code => .error code
        | .ok () => .ok (indent, true)

def hashAt (prev : UInt8) : Bytes → Option Nat
  | [] => none
  | b :: s => if b = HASH ∧ prev = SPACE then some 0 else (hashAt b s).map (· + 1)

def closeAt (depth : Nat) : Bytes → Option Nat
  | [] => none
  | b :: s =>
    if b = BRACKET_OPEN then (closeAt (depth + 1) s).map (· + 1)
    else if b = BRACKET_CLOSE then
      if depth = 1 then some 0 else (closeAt (depth - 1) s).map (· + 1)
    else (closeAt depth s).map (· + 1)

def commentStart (v : Bytes) : Except ErrorCode Nat :=
  if v.head? = some BRACKET_OPEN then
    match closeAt 0 v with
    | none => .error .flowUnterminatedSameLine
    | some i => .ok (i + 1)
  else .ok 0

/-- The value at the head of `v`, which stands behind one space of its line. -/
def parseInlineComment (v : Bytes) : Except ErrorCode Bytes :=
  match commentStart v with
  | .error code => .error code
  | .ok i =>
    match hashAt (if i = 0 then SPACE else BRACKET_CLOSE) (v.drop i) with
    | none => .ok v
    | some h =>
      let value := trimmed (v.take (i + h))
      -- an empty value lets the count run over the space before it
      let spaces := i + h - value.length + if value = [] then 1 else 0
      if SIML_MAX_INLINE_COMMENT_SPACES < spaces then .error .inlineCommentAlign
      else match commentText (v.drop (i + h + 1)) SIML_MAX_INLINE_COMMENT_TEXT_LEN
          .inlineCommentSpace .inlineCommentTooLong with
        | .error code => .error code
        | .ok () => .ok value

/-- A value behind `:` or `-`: exactly one space, then something. -/
def spacedValue (rest : Bytes) (noSpace : ErrorCode) : Except ErrorCode Bytes :=
  if rest.head? ≠ some SPACE ∨ (rest.drop 1).head? = some SPACE then .error noSpace
  else if rest.length = 1 then .error .inlineValueEmpty
  else parseInlineComment (rest.drop 1)

def parseMappingEntry (body : Bytes) : Except ErrorCode (Bytes × Option Bytes) :=
  match body with
  | [] => .error .unknownLineForm
  | b :: s =>
    if COLON ∉ body then .error .unknownLineForm
    else if !isKeyStart b then .error .keyIllegal
    else
      let key := b :: s.takeWhile isKeyChar
      match body.drop key.length with
      | [] => .error .keyIllegal
      | c :: rest =>
        if c ≠ COLON then .error .keyIllegal
        else if SIML_MAX_KEY_LEN < key.length then .error .keyTooLong
        else if rest = [] then .ok (key, none)
        else match spacedValue rest .expectSpaceAfterColon with
          | .error code => .error code
          | .ok value => .ok (key, some value)

def parseSequenceItem (body : Bytes) : Except ErrorCode Bytes :=
  match body with
  | [] => .error .expectSpaceAfterDash
  | b :: rest =>
    if b ≠ DASH then .error .expectSpaceAfterDash
    else if rest = [] then .error .seqItemRequiresInline
    else spacedValue rest .expectSpaceAfterDash

def startsMappingEntry : Bytes → Bool
  | [] => false
  | b :: s => isKeyStart b && (s.dropWhile isKeyChar).head? = some COLON

def startsSequenceItem : Bytes → Bool
  | [] => false
  | b :: s => b = DASH && (s = [] || s.head? = some SPACE)

end Lines

section Pending
variable (p : Parser)

def emitPendingEnd : Option Event × Parser :=
  match p.pendingClose, p.stack with
  | some target, c :: stack =>
    if target < p.stack.length then
      (some (if c.type = .map then .mappingEnd p.lineNo else .sequenceEnd),
        { p with stack := stack })
    else emitDocEnd { p with pendingClose := none }
  | _, _ => emitDocEnd { p with pendingClose := none }
where
  emitDocEnd (p : Parser) : Option Event × Parser :=
    if p.pendingDocEnd then
      (some .documentEnd,
        { p with pendingDocEnd := false
                 docState := if p.pendingStreamEnd then .before else .between })
    else if p.pendingStreamEnd then (some .streamEnd, { p with pendingStreamEnd := false })
    else (none, p)

def emitPendingStart : Option Event × Parser :=
  if p.pendingDocStart then (some (.documentStart p.lineNo), { p with pendingDocStart := false })
  else match p.pendingContainerStart with
    | some .map => (some (.mappingStart p.lineNo), { p with pendingContainerStart := none })
    | some .seq => (some (.sequenceStart [] p.lineNo), { p with pendingContainerStart := none })
    | none => (none, p)

def requestContainerStart (type : ContainerType) (indent : Nat) : Except ErrorCode Parser :=
  if SIML_MAX_NESTING ≤ p.stack.length then
    .error (.indentWrong ((p.stack.head?.map Container.indent).getD 0))
  else .ok { p with stack := ⟨type, indent⟩ :: p.stack, pendingContainerStart := some type }

def openContainer (type : ContainerType) (indent : Nat) : Step :=
  match requestContainerStart p type indent with
  | .error code => simlSetError p code
  | .ok p => returned (emitPendingStart p)

def closeTo (target : Nat) : Step := returned
    (emitPendingEnd { p with pendingClose := some target })

/-- The depth that leaves a container of this indentation innermost. -/
def depthAt (indent : Nat) : List Container → Option Nat
  | [] => none
  | c :: stack => if c.indent = indent then some (stack.length + 1) else depthAt indent stack

end Pending

section Values

inductive FlowEvent
  | open
  | item (value : Bytes)
  | close
  deriving DecidableEq, Repr

/-- Behind an item: the end of the sequence, or a comma and another item. -/
def pastComma (text : Bytes) (stop pos : Nat) : Except ErrorCode Nat :=
  if pos < stop then
    if text[pos]? ≠ some COMMA then .error .flowExcessTerm
    else if pos + 1 = stop then .error .flowTrailingComma
    else .ok (pos + 1)
  else .ok pos

def flowItem (text : Bytes) (f : FlowFrame) (outer : List FlowFrame) :
    Except ErrorCode (FlowEvent × List FlowFrame) :=
  let rest := (text.take f.stop).drop f.pos
  let item := rest.takeWhile fun b => b ≠ COMMA && b ≠ BRACKET_OPEN && b ≠ BRACKET_CLOSE
  let next := (rest.drop item.length).head?
  if item = [] then .error .flowEmptyElem
  else if next = some BRACKET_OPEN ∨ next = some BRACKET_CLOSE then .error .flowExcessTerm
  else if SIML_MAX_FLOW_ELEMENT_LEN < item.length then .error .flowAtomTooLong
  else if item.head? = some PIPE then .error .flowScalarStartsWithPipe
  else match pastComma text f.stop (f.pos + item.length) with
    | .error code => .error code
    | .ok pos => .ok (.item item, { f with pos := pos } :: outer)

/-- A bracket inside a flow sequence; the new frame is started at once. -/
def flowNested (text : Bytes) (f : FlowFrame) (outer : List FlowFrame) :
    Except ErrorCode (FlowEvent × List FlowFrame) :=
  match closeAt 0 ((text.take (f.stop + 1)).drop f.pos) with
  | none => .error .flowUnterminated
  | some i =>
    match pastComma text f.stop (f.pos + i + 1) with
    | .error code => .error code
    | .ok pos =>
      if SIML_MAX_NESTING ≤ outer.length + 1 then .error (.indentWrong 0)
      else .ok (.open, ⟨f.pos + i, f.pos + 1, true⟩ :: { f with pos := pos } :: outer)

def flowStep (text : Bytes) : List FlowFrame → Except ErrorCode (FlowEvent × List FlowFrame)
  | [] => .error .flowExcessTerm
  | f :: outer =>
    if !f.started then .ok (.open, { f with started := true } :: outer)
    else if f.stop ≤ f.pos then .ok (.close, outer)
    else match text[f.pos]? with
      | none => .error .flowEmptyElem
      | some b =>
        if b = COMMA then .error .flowEmptyElem
        else if b = SPACE ∨ b = TAB then .error .flowWhitespace
        else if b = BRACKET_OPEN then flowNested text f outer
        else if b = HASH then .error .flowScalarStartsWithHash
        else flowItem text f outer

def nextFlow (p : Parser) (text : Bytes) (frames : List FlowFrame) (key : Bytes) : Step :=
  match flowStep text frames with
  | .error code => simlSetError p code
  | .ok (ev, frames) =>
    let p := if frames = [] then { p with mode := .normal, line := none }
      else { p with mode := .flow text frames key }
    match ev with
    | .open => (.sequenceStart (if frames.length = 1 then key else []) p.lineNo, p)
    | .item value => (.scalar [] value p.lineNo, p)
    | .close => (.sequenceEnd, p)

def startFlow (p : Parser) (key value : Bytes) : Step :=
  nextFlow p value [⟨value.length - 1, 1, false⟩] key

def startBlock (p : Parser) (key : Bytes) (indent : Nat) : Step :=
  (.blockStart key p.lineNo,
    { p with mode := .block { key := key, indent := indent }, line := none })

def handleInlineValue (p : Parser) (key : Bytes) (indent : Nat) (value : Bytes) : Step :=
  if SIML_MAX_INLINE_VALUE_LEN < value.length then simlSetError p .inlineValueTooLong
  else match value with
    | [] => simlSetError p .inlineValueEmpty
    | b :: rest =>
      if b = PIPE then
        if rest ≠ [] then simlSetError p .scalarStartsWithPipe else startBlock p key indent
      else if b = BRACKET_OPEN then startFlow p key value
      else if b = HASH then simlSetError p .scalarStartsWithHash
      else (.scalar key value p.lineNo, { p with line := none })

end Values

section Block
variable (p : Parser) (b : BlockScalar)

def emitBlank : Step :=
  (.blockLine ⟨0, 0⟩,
    { p with mode := .block { b with blankCount := b.blankCount - 1
                                     emitBlanks := b.blankCount - 1 ≠ 0 } })

def leaveBlock : Step :=
  if !b.seenContent then simlSetError p .blockEmpty
  else if 0 < b.blankCount then simlSetError p .blockTrailingBlank
  else (.blockEnd, { p with mode := .normal })

def blockContent (line : PhysLine) : Step :=
  if line.text.all fun c => c = SPACE || c = TAB then simlSetError p .blockWhitespaceOnly
  else if line.text.getLast? = some SPACE then simlSetError p .trailingSpaces
  else if indentOf line.text < b.indent + 2 then leaveBlock p b
  else if SIML_MAX_BLOCK_LINE_LEN < line.text.length - (b.indent + 2) then
    simlSetError p .blockLineTooLong
  else if 0 < b.blankCount then emitBlank p { b with emitBlanks := true }
  else (.blockLine ⟨line.off + (b.indent + 2), line.text.length - (b.indent + 2)⟩,
    { p with line := none, mode := .block { b with seenContent := true } })

def BlockScalar.oneBlank (b : BlockScalar) : BlockScalar :=
  { b with blankCount := b.blankCount + 1 }

/-- Reads on; every round of the loop that emits nothing takes one blank line. -/
def readBlock (p : Parser) (b : BlockScalar) : List Bytes → Step
  | [] => leaveBlock { p with input := [], line := none } b
  | raw :: rest =>
    let q := p.taken raw rest
    match physLine raw p.off with
    | .error code => simlSetError q code
    | .ok line =>
      match checkLineCommon q.lineNo line with
      | .error code => simlSetError q code
      | .ok () =>
        if line.text ≠ [] then blockContent { q with line := some line } b line
        else if !b.seenContent then simlSetError q .blockLeadingBlank
        else readBlock { q with line := none, mode := .block b.oneBlank } b.oneBlank rest

def nextBlock : Step :=
  if b.emitBlanks && 0 < b.blankCount then emitBlank p b
  else match p.line with
    | none => readBlock p b p.input
    | some line =>
      match checkLineCommon p.lineNo line with
      | .error code => simlSetError p code
      | .ok () =>
        if line.text ≠ [] then blockContent p b line
        else if !b.seenContent then simlSetError p .blockLeadingBlank
        else readBlock { p with line := none, mode := .block b.oneBlank } b.oneBlank p.input

end Block

section Normal
variable (p : Parser)

def endOfInput : Step :=
  if p.pendingMap.isSome then simlSetError p .headerMapNoNested
  else match p.docState with
    | .between => simlSetError p .separatorAfterDoc
    | .inside => returned (emitPendingEnd
        { p with pendingClose := some 0, pendingDocEnd := true, pendingStreamEnd := true })
    | _ => returned (emitPendingEnd { p with pendingStreamEnd := true })

def shebangMark : Bytes := ascii "#!"

def shebangLine (text : Bytes) (trailing : Bool) : Step :=
  if p.lineNo ≠ 1 ∨ text.head? = some SPACE then simlSetError p .shebangPosition
  else if trailing then simlSetError p .trailingSpaces
  else if text.length = 2 then simlSetError p .shebangEmpty
  else if SIML_MAX_SHEBANG_TEXT_LEN < text.length - 2 then simlSetError p .shebangTooLong
  else (.shebang, { p with line := none })

/-- The depth to close to before the comment (0 for none), if it may stand here. -/
def commentCheckIndent (indent : Nat) : Option Nat :=
  match p.pendingMap with
  | some expected => if indent = expected then some 0 else none
  | none =>
    match p.stack with
    | [] => if indent = 0 then some 0 else none
    | c :: stack => if c.indent = indent then some 0 else depthAt indent stack

def commentLine (indent : Nat) (trailing : Bool) : Step :=
  if trailing then simlSetError p .trailingSpaces
  else match commentCheckIndent p indent with
    | none => simlSetError p .commentIndent
    | some target =>
      if 0 < target then closeTo p target else (.comment, { p with line := none })

def dashes : Bytes := ascii "---"

def separatorLine (text : Bytes) (trailing : Bool) : Step :=
  if text = dashes then
    if trailing then simlSetError p .separatorFormat
    else if p.pendingMap.isSome then simlSetError p .headerMapNoNested
    else if p.docState ≠ .inside then simlSetError p .separatorBeforeDoc
    else returned (emitPendingEnd
      { p with pendingClose := some 0, pendingDocEnd := true, line := none })
  else match hashAt DASH (text.drop 3) with
    | none => simlSetError p .separatorFormat
    | some i =>
      let rest := text.drop (3 + i + 1)
      if rest = [] then simlSetError p .emptyComment
      else if rest.head? ≠ some SPACE then simlSetError p .inlineCommentSpace
      else if rest.length = 1 then simlSetError p .emptyComment
      else simlSetError p .separatorInlineComment

def mappingLine (body : Bytes) (indent : Nat) (trailing : Bool) : Step :=
  match parseMappingEntry body with
  | .error code => simlSetError p code
  | .ok (key, value) =>
    if trailing then simlSetError p .trailingSpaces
    else match value with
      | none => (.entryHeader key p.lineNo,
          { p with pendingMap := some (indent + 2), line := none })
      | some value => handleInlineValue p key indent value

def sequenceLine (body : Bytes) (indent : Nat) (trailing : Bool) : Step :=
  match parseSequenceItem body with
  | .error code => simlSetError p code
  | .ok value =>
    if trailing then simlSetError p .trailingSpaces
    else if startsMappingEntry value then nested .map
    else if startsSequenceItem value then nested .seq
    else handleInlineValue p [] indent value
where
  /-- The rest of the line is read again, two columns further in. -/
  nested (type : ContainerType) : Step :=
    match requestContainerStart p type (indent + 2) with
    | .error code => simlSetError p code
    | .ok p => returned (emitPendingStart { p with inlineSequenceItem := some (indent + 2) })

def itemLine (cur : Container) (body : Bytes) (indent : Nat) (trailing : Bool) : Step :=
  if cur.indent < indent then simlSetError p (.indentWrong cur.indent)
  else if indent < cur.indent then
    match depthAt indent p.stack with
    | none => simlSetError p (.indentWrong cur.indent)
    | some target => closeTo p target
  else match cur.type with
    | .map =>
      if body.head? = some DASH then simlSetError p (.nodeKindMix indent)
      else mappingLine p body indent trailing
    | .seq =>
      if body.head? = some DASH then sequenceLine p body indent trailing
      else simlSetError p (.nodeKindMix indent)

def nodeLine (text : Bytes) (lineIndent : Nat) (trailing : Bool) : Step :=
  let indent := p.inlineSequenceItem.getD lineIndent
  let p := { p with inlineSequenceItem := none }
  let body := text.drop indent
  let type := if body.head? = some DASH then ContainerType.seq else .map
  if indent = 0 ∧ dashes <+: text then separatorLine p text trailing
  else if 0 < indent ∧ body = dashes then simlSetError p .separatorIndent
  else if body = [] then simlSetError p .docScalar
  else match p.pendingMap with
    | some expected =>
      if indent ≠ expected then simlSetError p (.indentNestMismatch expected indent)
      else if p.docState ≠ .inside then simlSetError p .docScalar
      else match requestContainerStart p type indent with
        | .error code => simlSetError p code
        | .ok p => returned (emitPendingStart { p with pendingMap := none })
    | none =>
      if p.docState ≠ .inside then
        if indent ≠ 0 then simlSetError p .docIndent
        else openContainer { p with docState := .inside, pendingDocStart := true } type indent
      else match p.stack with
        | [] => simlSetError p .docScalar
        | cur :: _ => itemLine p cur body indent trailing

def normalLine (line : PhysLine) : Step :=
  match checkLineNonblock p.lineNo line with
  | .error code => simlSetError p code
  | .ok () =>
    let text := trimmed line.text
    let trailing : Bool := text ≠ line.text
    if shebangMark <+: text.dropWhile (· = SPACE) then shebangLine p text trailing
    else match parseCommentLine text with
      | .error code => simlSetError p code
      | .ok (indent, isComment) =>
        if isComment then commentLine p indent trailing else nodeLine p text indent trailing

def nextNormal : Step :=
  match p.line with
  | some line => normalLine p line
  | none =>
    match p.input with
    | [] => endOfInput p
    | raw :: rest =>
      match physLine raw p.off with
      | .error code => simlSetError (p.taken raw rest) code
      | .ok line => normalLine { p.taken raw rest with line := some line } line

def simlNext : Step :=
  match p.error with
  | some (line, code) => (.error line (some code.message), p)
  | none =>
    if p.docState = .idle then (.streamStart, { p with docState := .before })
    else match p.mode with
      | .flow text frames key => nextFlow p text frames key
      | .block b => nextBlock p b
      | .normal =>
        match emitPendingEnd p with
        | (some ev, p) => (ev, p)
        | (none, p) =>
          match emitPendingStart p with
          | (some ev, p) => (ev, p)
          | (none, p) => nextNormal p

end Normal

end Hacman.Siml
