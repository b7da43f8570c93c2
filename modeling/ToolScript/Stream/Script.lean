import ToolScript.Stream.Filter
import ToolScript.Markup.Tag

/-! # Hiding scripts

    Scripts of both generations are hidden: the one between its two marks, the other between tags. Any end marker
    ends any block. -/

namespace ToolScript.Stream
open Text Markup

def scriptStart : Pattern Unit :=
  (Pattern.exactly legacyStart).or (openTag.map fun _ => ())

def scriptStop : Pattern Unit :=
  (Pattern.exactly legacyEnd).or (closeTag.map fun _ => ())

/-- Whether a text is the beginning of an opening tag without its last bracket. -/
def couldBeTag (s : List Char) : Bool :=
  let head := ['<', 'n', 'i', 't']
  (s.take 4).map Char.toLower == head.take s.length &&
    match s.drop 4 with
    | [] => true
    | '-' :: digits => decide (digits.length ≤ 4) && digits.all isHexDigit
    | _ => false

/-- The markers of scripts. -/
def scriptMarkers : Markers Unit where
  start := scriptStart
  stop _ := scriptStop
  couldStart s := s.isPrefixOf legacyStart || couldBeTag s
  maxStart := 14
  maxStop := 13

end ToolScript.Stream
