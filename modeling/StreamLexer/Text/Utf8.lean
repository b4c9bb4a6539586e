/-
**Texts as bytes.**

What is written to a sink and what is read from a file are bytes, so a text has to be turned into
its encoding and back.  Reading back is strict here: bytes that are no encoding are refused, and
since decoding is total this is a comparison — bytes are an encoding exactly when encoding what
they decode to gives them back.

Main definitions:

* `StreamLexer.encodeUtf8` — the bytes of a text;
* `StreamLexer.decodeUtf8?` — the text with the given bytes, if there is one.
-/

import StreamLexer.Source.Utf8Decoder

set_option relaxedAutoImplicit false
set_option autoImplicit false

namespace StreamLexer

/-- The bytes of a text. -/
def encodeUtf8 (cs : List Char) : List UInt8 := cs.flatMap String.utf8EncodeChar

theorem encodeUtf8_append (cs cs' : List Char) :
    encodeUtf8 (cs ++ cs') = encodeUtf8 cs ++ encodeUtf8 cs' :=
  List.flatMap_append

/-- The text with the given bytes, or `none` if they encode no text. -/
def decodeUtf8? (bytes : List UInt8) : Option (List Char) :=
  let cs := decodeUtf8 bytes
  if encodeUtf8 cs = bytes then some cs else none

end StreamLexer
