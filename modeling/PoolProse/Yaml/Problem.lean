import PoolProse.Text

/-!
# Problems with YAML documents

Everything that can be wrong with the form of a document, and how it is reported.
-/
namespace PoolProse.Yaml

inductive Problem where
  -- Characters
  | invalidLeadingOctet
  | incompleteSequence
  | invalidTrailingOctet
  | invalidSequenceLength
  | invalidCharacter
  | controlCharacter
  | incompleteWord
  | incompletePair
  | unexpectedLowSurrogate
  | missingLowSurrogate
  -- Tokens
  | missingColon
  | noToken
  | entryNotAllowed
  | keyNotAllowed
  | valueNotAllowed
  | unknownDirective
  | missingDirectiveName
  | badDirectiveName
  | missingVersionNumber
  | longVersionNumber
  | missingVersionPoint
  | missingWhitespace
  | missingWhitespaceOrBreak
  | missingCommentOrBreak
  | missingAnchorName
  | missingExclamation
  | missingTagUri
  | missingTagEnd
  | badUriEscape
  | badUriLeadingOctet
  | badUriTrailingOctet
  | zeroIndentation
  | tabInIndentation
  | tabBeforeIndentation
  | documentIndicator
  | endOfStream
  | unknownEscape
  | missingHexDigit
  | invalidEscapeCode
  -- Structure
  | duplicateVersion
  | incompatibleVersion
  | duplicateTagDirective
  | missingDocumentStart
  | undefinedTagHandle
  | missingContent
  | missingDash
  | missingKey
  | missingCommaOrBracket
  | missingCommaOrBrace
  | tooManyTokens
  deriving DecidableEq, Repr

def Problem.message : Problem → String
  | .invalidLeadingOctet => "invalid leading UTF-8 octet"
  | .incompleteSequence => "incomplete UTF-8 octet sequence"
  | .invalidTrailingOctet => "invalid trailing UTF-8 octet"
  | .invalidSequenceLength => "invalid length of a UTF-8 sequence"
  | .invalidCharacter => "invalid Unicode character"
  | .controlCharacter => "control characters are not allowed"
  | .incompleteWord => "incomplete UTF-16 character"
  | .incompletePair => "incomplete UTF-16 surrogate pair"
  | .unexpectedLowSurrogate => "unexpected low surrogate area"
  | .missingLowSurrogate => "expected low surrogate area"
  | .missingColon => "could not find expected ':'"
  | .noToken => "found character that cannot start any token"
  | .entryNotAllowed => "block sequence entries are not allowed in this context"
  | .keyNotAllowed => "mapping keys are not allowed in this context"
  | .valueNotAllowed => "mapping values are not allowed in this context"
  | .unknownDirective => "found unknown directive name"
  | .missingDirectiveName => "could not find expected directive name"
  | .badDirectiveName => "found unexpected non-alphabetical character"
  | .missingVersionNumber => "did not find expected version number"
  | .longVersionNumber => "found extremely long version number"
  | .missingVersionPoint => "did not find expected digit or '.' character"
  | .missingWhitespace => "did not find expected whitespace"
  | .missingWhitespaceOrBreak => "did not find expected whitespace or line break"
  | .missingCommentOrBreak => "did not find expected comment or line break"
  | .missingAnchorName => "did not find expected alphabetic or numeric character"
  | .missingExclamation => "did not find expected '!'"
  | .missingTagUri => "did not find expected tag URI"
  | .missingTagEnd => "did not find the expected '>'"
  | .badUriEscape => "did not find URI escaped octet"
  | .badUriLeadingOctet => "found an incorrect leading UTF-8 octet"
  | .badUriTrailingOctet => "found an incorrect trailing UTF-8 octet"
  | .zeroIndentation => "found an indentation indicator equal to 0"
  | .tabInIndentation => "found a tab character where an indentation space is expected"
  | .tabBeforeIndentation => "found a tab character that violates indentation"
  | .documentIndicator => "found unexpected document indicator"
  | .endOfStream => "found unexpected end of stream"
  | .unknownEscape => "found unknown escape character"
  | .missingHexDigit => "did not find expected hexdecimal number"
  | .invalidEscapeCode => "found invalid Unicode character escape code"
  | .duplicateVersion => "found duplicate %YAML directive"
  | .incompatibleVersion => "found incompatible YAML document"
  | .duplicateTagDirective => "found duplicate %TAG directive"
  | .missingDocumentStart => "did not find expected <document start>"
  | .undefinedTagHandle => "found undefined tag handle"
  | .missingContent => "did not find expected node content"
  | .missingDash => "did not find expected '-' indicator"
  | .missingKey => "did not find expected key"
  | .missingCommaOrBracket => "did not find expected ',' or ']'"
  | .missingCommaOrBrace => "did not find expected ',' or '\x7d'"
  | .tooManyTokens => "exceeded the number of tokens"

/-- Why a document cannot be read: a problem with its form, where line 0 is left unsaid, or a node
that does not make sense. -/
inductive Error where
  | problem (p : Problem) (line : Nat)
  | unknownAnchor (name : Text)
  | anchorContainsItself (name : Text)
  | wrongTag (found value expected : Text)
  | badBase64
  | badMerge
  deriving DecidableEq, Repr

def Error.message : Error → Text
  | .problem p line =>
    let place := if line = 0 then [] else utf8 "line " ++ Text.ofNat line ++ utf8 ": "
    utf8 "yaml: " ++ place ++ utf8 p.message
  | .unknownAnchor name => utf8 "yaml: unknown anchor '" ++ name ++ utf8 "' referenced"
  | .anchorContainsItself name => utf8 "yaml: anchor '" ++ name ++ utf8 "' value contains itself"
  | .wrongTag found value expected =>
    utf8 "yaml: cannot decode " ++ found ++ utf8 " `" ++ value ++ utf8 "` as a " ++ expected
  | .badBase64 => utf8 "yaml: !!binary value contains invalid base64 data"
  | .badMerge => utf8 "yaml: map merge requires map or sequence of maps as the value"

end PoolProse.Yaml
