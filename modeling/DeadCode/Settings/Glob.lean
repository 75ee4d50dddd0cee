import DeadCode.Text.Affix

/-!
The patterns of the settings. A star at one end of a pattern without slashes stands for any text; two
stars stand for any directories. What a pattern means goes by its form, tried in this order: an open
end, a directory anywhere, two stars between a beginning and an ending, and a plain text.
-/
namespace DeadCode.Glob
open DeadCode.Text

def trimSlashesStart (text : List Char) : List Char := text.dropWhile (· == '/')

def trimSlashesEnd (text : List Char) : List Char :=
  (text.reverse.dropWhile (· == '/')).reverse

/-- Whether a directory of this name stands anywhere in a path. -/
def hasDirectory (directory text : List Char) : Bool :=
  contains text ('/' :: directory ++ ['/']) || (directory ++ ['/']).isPrefixOf text

/-- Whether a path has an ending; a star in front lets it end a name. -/
def hasEnding (ending text : List Char) : Bool :=
  match ending with
  | '*' :: tail => tail.isSuffixOf text
  | _ => ending.isSuffixOf text || contains text ('/' :: ending)

/-- The case of two stars between a beginning and an ending. -/
def matchesBetween (beginning ending text : List Char) : Bool :=
  if beginning.isEmpty && ending.isEmpty then true
  else if beginning.isEmpty then hasEnding ending text
  else if ending.isEmpty then beginning.isPrefixOf text || contains text (beginning ++ ['/'])
  else
    (beginning.isPrefixOf text || contains text ('/' :: beginning ++ ['/'])) && hasEnding ending text

def fits (pattern text : List Char) : Bool :=
  if startsWith pattern "*" && !pattern.contains '/' then (pattern.drop 1).isSuffixOf text
  else if endsWith pattern "*" && !pattern.contains '/' then pattern.dropLast.isPrefixOf text
  else if contains pattern "**".toList then
    if startsWith pattern "**/" && endsWith pattern "/**" then
      let inner := dropTails "/**".toList (dropLeads "**/".toList pattern)
      hasDirectory (trimSlashesEnd (trimSlashesStart inner)) text
    else
      match splitOn pattern "**" with
      | [beginning, ending] =>
        matchesBetween (trimSlashesEnd beginning) (trimSlashesStart ending) text
      | _ => text == pattern
  else text == pattern

end DeadCode.Glob
