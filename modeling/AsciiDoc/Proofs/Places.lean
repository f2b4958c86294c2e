import AsciiDoc.Token.Basic

namespace AsciiDoc

inductive Place where
  | between
  | inText
  | lineStart
  | beforeText
  /-- A new list item may begin; the one before was no entry. -/
  | item
  /-- A list text was read that may turn out to be a key. -/
  | keyOrValue
  | entryEnd
  | beforeEntry
  | beforeValue
  | stringOpen
  | stringWord
  | stringGap
  | afterMark
  | legacyOpen
  | legacyText
  deriving DecidableEq, Repr

namespace Place

def itemStart? : Kind → Option Place
  | .legacyIdStart => some legacyOpen
  | .idMark | .roleMark | .optionMark => some afterMark
  | .listText => some keyOrValue
  | .stringStart => some stringOpen
  | .listEnd => some between
  | _ => none

def next? : Place → Kind → Option Place
  | between, .newline => some lineStart
  | between, .emptyLine => some between
  | inText, .inlineText | inText, .space => some inText
  | inText, .newline => some lineStart
  | inText, .emptyLine => some between
  | lineStart, .headline => some beforeText
  | lineStart, .listStart => some item
  | lineStart, .space => some beforeText
  | lineStart, .inlineText => some inText
  | beforeText, .space => some beforeText
  | beforeText, .inlineText => some inText
  | item, k => itemStart? k
  | keyOrValue, .assignment => some beforeValue
  | keyOrValue, .comma => some beforeEntry
  | keyOrValue, k => itemStart? k
  | entryEnd, .comma => some beforeEntry
  | entryEnd, k => itemStart? k
  | beforeEntry, .listText => some keyOrValue
  | beforeEntry, .stringStart => some stringOpen
  | beforeValue, .listText => some entryEnd
  | beforeValue, .stringStart => some stringOpen
  | stringOpen, .stringText => some stringWord
  | stringOpen, .stringEnd => some entryEnd
  | stringWord, .space => some stringGap
  | stringWord, .stringEnd => some entryEnd
  | stringGap, .stringText => some stringWord
  | afterMark, .listText => some item
  | legacyOpen, .listText => some legacyText
  | legacyText, .legacyIdEnd => some item
  | _, _ => none

def isEnd : Place → Bool
  | between | inText | lineStart => true
  | _ => false

def walk (p : Place) (ks : List Kind) : Option Place := ks.foldlM next? p

@[simp] theorem walk_nil (p : Place) : p.walk [] = some p := rfl

theorem walk_cons (p : Place) (k : Kind) (ks : List Kind) :
    p.walk (k :: ks) = (p.next? k).bind fun q => q.walk ks := by
  rw [walk, List.foldlM_cons]
  rfl

theorem walk_append (p : Place) (ks ls : List Kind) :
    p.walk (ks ++ ls) = (p.walk ks).bind fun q => q.walk ls := by
  rw [walk, List.foldlM_append]
  rfl

def Accepts (ks : List Kind) : Prop := ∃ q : Place, between.walk ks = some q ∧ q.isEnd = true

end Place

end AsciiDoc
